import CkServer.Verification.Tcp.CrossThread

/-! # Shutdown after the data

The queue of the loop keeps a `shutdownInLoop` behind every `sendInLoop` that was queued before
the call of `shutdown`. What runs in the loop's thread does not go through the queue: under the
condition that nothing sent earlier waits there, what was sent before `shutdown` was called is
written before the `shutdownWrite`. -/

namespace CkServer

namespace TcpConnection

/-- The calls on the socket have grown by writes at most. -/
def Writes (c c' : TcpConnection) : Prop :=
  ∃ calls, c'.socket_ = c.socket_ ++ calls ∧ .shutdownWrite ∉ calls

theorem Writes.of_eq {c c' : TcpConnection} (h : c'.socket_ = c.socket_) : c.Writes c' :=
  ⟨[], by rw [h, List.append_nil], List.not_mem_nil⟩

theorem writes_writeDirect (c : TcpConnection) (data : List UInt8) (r : Except Errno ℕ) :
    c.Writes (c.writeDirect data r).1 := by
  obtain ⟨cbs, calls, -, heq, hcalls⟩ := c.writeDirect_eq data r
  refine ⟨calls, by rw [heq], ?_⟩
  rcases hcalls with rfl | ⟨-, -, rfl⟩
  · exact List.not_mem_nil
  · simp

theorem writes_writeOutput (c : TcpConnection) (r : Except Errno ℕ) :
    c.Writes (c.writeOutput r).1 := by
  rcases c.writeOutput_socket_ r with heq | ⟨-, heq⟩
  · exact .of_eq heq
  · exact ⟨_, heq, by simp⟩

end TcpConnection

/-- What the kernel returns to a step. -/
def Action.outside {n : ℕ} : Action n → Outside
  | .execute o => o
  | _ => {}

namespace ConnectionSystem

variable {n : ℕ} {s : ConnectionSystem n}

/-! ## The property and the condition -/

/-- Before each `shutdownWrite` come, whole and in their order, the data of calls of `send`,
among them all that had returned when `shutdown` was called. -/
def DataFirst (s : ConnectionSystem n) : Prop :=
  ∀ p, s.promised = some p → ∀ before after,
    s.conn.socket_ = before ++ .shutdownWrite :: after →
      ∃ done, done <+: s.handled ∧ p.handled ≤ done.length ∧
        (∀ k < p.queued, ∃ h ∈ done, h.call = some k ∧ s.queuedSends[k]? = some h.data) ∧
        written before = done.flatMap Handled.data

/-- Nothing that had been sent when `shutdown` was called waits in the queue. -/
def NoneWaits (s : ConnectionSystem n) : Prop :=
  ∀ p ∈ s.promised, ∀ f ∈ s.outputs, ∀ k ∈ f.call, p.queued ≤ k

/-- No write fails for good. -/
def SocketWorks (a : Action n) : Prop :=
  a.outside.written ≠ .error .EPIPE ∧ a.outside.written ≠ .error .ECONNRESET

/-- Where `shutdownInLoop` finds no interest in writing, the channel has not been disabled;
and where it has not come out of the queue, nothing sent earlier waits there. -/
def NotOvertaken (s : ConnectionSystem n) (a : Action n) : Prop :=
  (s.doing a = some (.functor .shutdownInLoop) →
    s.conn.channel_.isWriting = true ∨ s.conn.channel_.isReading = true) ∧
  (s.doing a = some .storeDisconnecting ∨
      s.doing a = some .drained ∧ s.conn.state_ = .kDisconnecting →
    s.conn.channel_.isWriting = true ∨ s.conn.channel_.isReading = true ∧ s.NoneWaits)

instance (s : ConnectionSystem n) : Decidable s.NoneWaits :=
  inferInstanceAs (Decidable (∀ p ∈ s.promised, ∀ f ∈ s.outputs, ∀ k ∈ f.call, p.queued ≤ k))

instance (a : Action n) : Decidable (SocketWorks a) :=
  inferInstanceAs (Decidable (_ ≠ _ ∧ _ ≠ _))

instance (s : ConnectionSystem n) (a : Action n) : Decidable (s.NotOvertaken a) :=
  inferInstanceAs (Decidable ((_ → _) ∧ (_ → _)))

/-! ## The invariant -/

/-- A functor that waits behind a `shutdownInLoop` was not sent before `shutdown` was called. -/
def Behind (p : Promise) (f g : Functor) : Prop :=
  f = .shutdownInLoop → ∀ k, g.call = some k → p.queued ≤ k

structure Orderly (s : ConnectionSystem n) : Prop where
  interested : s.conn.channel_.isReading = true → s.conn.Interested
  works : ∀ h ∈ s.handled, h.faultError = false
  rest : ∀ taken data len call, .bufferRest taken data len call true ∉ s.todo
  connected : s.conn.state_ = .kConnected → .shutdownInLoop ∉ s.outputs ∧
    .shutdownWrite ∉ s.conn.socket_ ∧ ∀ thread, s.threads thread ≠ .queueShutdown
  promised : ∀ p, s.promised = some p →
    p.queued ≤ s.queuedSends.length ∧ p.handled ≤ s.handled.length
  behind : ∀ p, s.promised = some p → s.outputs.Pairwise (Behind p)
  dataFirst : DataFirst s

/-- A step that neither calls `shutdown` nor brings a `shutdownWrite` nearer. -/
structure Steady (s s' : ConnectionSystem n) : Prop where
  interested : (s.conn.channel_.isReading = true → s.conn.Interested) →
    s'.conn.channel_.isReading = true → s'.conn.Interested
  rest : ∀ taken data len call, .bufferRest taken data len call true ∈ s'.todo →
    .bufferRest taken data len call true ∈ s.todo
  connected : s'.conn.state_ = .kConnected → s.conn.state_ = .kConnected ∧
    ∀ thread, s'.threads thread = .queueShutdown → s.threads thread = .queueShutdown
  socket : s.conn.Writes s'.conn
  promised : s'.promised = s.promised
  queuedSends : s.queuedSends <+: s'.queuedSends
  handled : ∃ ended, s'.handled = s.handled ++ ended ∧ ∀ h ∈ ended, h.faultError = false
  outputs : ∃ fs, s'.outputs.Sublist (s.outputs ++ fs) ∧
    ∀ f ∈ fs, f ≠ .shutdownInLoop ∧ ∀ k, f.call = some k → s.queuedSends.length ≤ k

end ConnectionSystem

/-! ## Lists -/

theorem exists_split_of_append {α : Type*} {l calls before after : List α} {x : α}
    (h : l ++ calls = before ++ x :: after) (hx : x ∉ calls) :
    ∃ after', l = before ++ x :: after' := by
  rcases List.append_eq_append_iff.mp h with ⟨more, -, heq⟩ | ⟨more, rfl, heq⟩
  · exact absurd (heq ▸ List.mem_append_right more List.mem_cons_self) hx
  · cases more with
    | nil =>
        rw [List.nil_append] at heq
        exact absurd (heq ▸ List.mem_cons_self) hx
    | cons y more =>
        rw [List.cons_append, List.cons.injEq] at heq
        exact ⟨more, by rw [heq.1]⟩

theorem exists_split_of_snoc {α : Type*} {l before after : List α} {x : α}
    (h : l ++ [x] = before ++ x :: after) : before = l ∨ ∃ after', l = before ++ x :: after' := by
  rcases List.append_eq_append_iff.mp h with ⟨more, rfl, heq⟩ | ⟨more, rfl, heq⟩
  · cases more with
    | nil => exact .inl (List.append_nil l)
    | cons y more => simp at heq
  · cases more with
    | nil => exact .inl (List.append_nil before).symm
    | cons y more =>
        rw [List.cons_append, List.cons.injEq] at heq
        exact .inr ⟨more, by rw [heq.1]⟩

theorem getElem?_of_initial {α : Type*} {l l' : List α} (h : l <+: l') {k : ℕ} {x : α}
    (hk : l[k]? = some x) : l'[k]? = some x := by
  obtain ⟨more, rfl⟩ := h
  obtain ⟨hlt, -⟩ := List.getElem?_eq_some_iff.mp hk
  rw [List.getElem?_append_left hlt, hk]

namespace ConnectionSystem

variable {n : ℕ} {s : ConnectionSystem n}

theorem Orderly.of_steady (h : Orderly s) {s' : ConnectionSystem n} (hs : Steady s s') :
    Orderly s' := by
  obtain ⟨calls, hsocket, hcalls⟩ := hs.socket
  obtain ⟨ended, hhandled, hended⟩ := hs.handled
  obtain ⟨fs, houtputs, hfs⟩ := hs.outputs
  constructor
  · exact hs.interested h.interested
  · rw [hhandled]
    intro e he
    rcases List.mem_append.mp he with he | he
    · exact h.works e he
    · exact hended e he
  · exact fun taken data len call hmem => h.rest _ _ _ _ (hs.rest _ _ _ _ hmem)
  · intro hstate
    obtain ⟨hold, hthreads⟩ := hs.connected hstate
    obtain ⟨hnot, hnot', hnone⟩ := h.connected hold
    refine ⟨fun hmem => ?_, ?_, fun thread hthread => hnone thread (hthreads thread hthread)⟩
    · rcases List.mem_append.mp (houtputs.subset hmem) with hmem | hmem
      · exact hnot hmem
      · exact (hfs _ hmem).1 rfl
    · rw [hsocket, List.mem_append, not_or]
      exact ⟨hnot', hcalls⟩
  · rw [hs.promised]
    intro p hp
    obtain ⟨hqueued, hlength⟩ := h.promised p hp
    rw [hhandled, List.length_append]
    exact ⟨hqueued.trans hs.queuedSends.length_le, by omega⟩
  · rw [hs.promised]
    intro p hp
    refine List.Pairwise.sublist houtputs (List.pairwise_append.mpr ⟨h.behind p hp, ?_, ?_⟩)
    · apply List.pairwise_of_forall_mem_list
      intro f hf g _ hshutdown
      exact absurd hshutdown (hfs f hf).1
    · intro f _ g hg _ k hk
      exact (h.promised p hp).1.trans ((hfs g hg).2 k hk)
  · rw [DataFirst, hs.promised]
    intro p hp before after hsplit
    rw [hsocket] at hsplit
    obtain ⟨after', hold⟩ := exists_split_of_append hsplit hcalls
    obtain ⟨done, hdone, hlength, hsent, hwritten⟩ := h.dataFirst p hp before after' hold
    refine ⟨done, ?_, hlength, fun k hk => ?_, hwritten⟩
    · rw [hhandled]
      exact hdone.trans (List.prefix_append _ _)
    · obtain ⟨e, he, hcall, hdata⟩ := hsent k hk
      exact ⟨e, he, hcall, getElem?_of_initial hs.queuedSends hdata⟩

theorem outputs_sublist_of_todo {s' : ConnectionSystem n} {task : Task} {rest : List Task}
    (htodo : s.todo = task :: rest) (hqueues : s.conn.Queues s'.conn)
    (htodo' : s'.todo = rest ∨ ∃ t, t.output = none ∧ s'.todo = t :: rest) :
    s'.outputs.Sublist s.outputs := by
  rw [outputs_of_todo hqueues htodo', outputs, htodo]
  exact ((List.sublist_cons_self task rest).filterMap Task.output).append_right _

theorem rest_of_todo {s' : ConnectionSystem n} {task : Task} {rest : List Task}
    (htodo : s.todo = task :: rest)
    (htodo' : s'.todo = rest ∨ ∃ t, t.output = none ∧ s'.todo = t :: rest)
    {taken : List UInt8} {data len call : ℕ}
    (hmem : .bufferRest taken data len call true ∈ s'.todo) :
    .bufferRest taken data len call true ∈ s.todo := by
  rw [htodo]
  rcases htodo' with heq | ⟨t, ht, heq⟩
  · exact List.mem_cons_of_mem _ (heq ▸ hmem)
  · rw [heq] at hmem
    rcases List.mem_cons.mp hmem with rfl | hmem
    · cases ht
    · exact List.mem_cons_of_mem _ hmem

/-- A task is done that neither ends a `sendInLoop` nor shuts down. -/
theorem steady_of_todo {s' : ConnectionSystem n} {task : Task} {rest : List Task}
    (htodo : s.todo = task :: rest)
    (hinterested : (s.conn.channel_.isReading = true → s.conn.Interested) →
      s'.conn.channel_.isReading = true → s'.conn.Interested)
    (hstate : s'.conn.state_ = .kConnected → s.conn.state_ = .kConnected)
    (hsocket : s.conn.Writes s'.conn)
    (hthreads : s'.threads = s.threads) (hpromised : s'.promised = s.promised)
    (hsends : s'.queuedSends = s.queuedSends) (hhandled : s'.handled = s.handled)
    (hqueues : s.conn.Queues s'.conn)
    (htodo' : s'.todo = rest ∨ ∃ t, t.output = none ∧ s'.todo = t :: rest) : Steady s s' := by
  constructor
  · exact hinterested
  · exact fun _ _ _ _ hmem => rest_of_todo htodo htodo' hmem
  · rw [hthreads]
    exact fun hnew => ⟨hstate hnew, fun _ => id⟩
  · exact hsocket
  · exact hpromised
  · rw [hsends]
  · exact ⟨[], by rw [hhandled, List.append_nil], List.forall_mem_nil _⟩
  · refine ⟨[], ?_, List.forall_mem_nil _⟩
    rw [List.append_nil]
    exact outputs_sublist_of_todo htodo hqueues htodo'

/-- Nothing has been done to the connection or the tasks but that a callback may be queued. -/
theorem steady_of_todo_eq {s' : ConnectionSystem n} (htodo : s'.todo = s.todo)
    (hchannel : s'.conn.channel_ = s.conn.channel_)
    (hbuffer : s'.conn.outputBuffer_ = s.conn.outputBuffer_)
    (hsocket : s'.conn.socket_ = s.conn.socket_)
    (hconnected : s'.conn.state_ = .kConnected → s.conn.state_ = .kConnected ∧
      ∀ thread, s'.threads thread = .queueShutdown → s.threads thread = .queueShutdown)
    (hpromised : s'.promised = s.promised) (hhandled : s'.handled = s.handled)
    (hsends : s.queuedSends <+: s'.queuedSends)
    (fs : List Functor)
    (hpending : s'.conn.loop_.pendingFuntors_ = s.conn.loop_.pendingFuntors_ ++ fs)
    (hfs : ∀ f ∈ fs, f ≠ .shutdownInLoop ∧ ∀ k, f.call = some k → s.queuedSends.length ≤ k) :
    Steady s s' := by
  constructor
  · rw [TcpConnection.Interested, TcpConnection.Interested, hchannel, hbuffer]
    exact id
  · rw [htodo]
    exact fun _ _ _ _ => id
  · exact hconnected
  · exact .of_eq hsocket
  · exact hpromised
  · exact hsends
  · exact ⟨[], by rw [hhandled, List.append_nil], List.forall_mem_nil _⟩
  · refine ⟨fs.filter Functor.isOutput, ?_, fun f hf => hfs f (List.mem_of_mem_filter hf)⟩
    rw [outputs, htodo, hpending, List.filter_append, ← List.append_assoc]
    exact List.Sublist.refl _

/-! ## `shutdownWrite` -/

/-- Everything that has been handed over has been written. -/
theorem Orderly.written_eq (h : Orderly s) (hc : Carried s) {task : Task} {rest : List Task}
    (htodo : s.todo = task :: rest) (htask : task.isBufferRest = false)
    (hwriting : s.conn.channel_.isWriting = false) (hreading : s.conn.channel_.isReading = true) :
    written s.conn.socket_ = s.handled.flatMap Handled.data := by
  have hempty : s.conn.outputBuffer_.readable = [] := by
    by_contra hne
    have hwants := (h.interested hreading).mpr hne
    rw [hwriting] at hwants
    cases hwants
  have htaken : s.todo.flatMap Task.taken = [] := by
    have htail := hc.tail
    rw [htodo, List.tail_cons] at htail
    rw [htodo, List.flatMap_cons, Task.taken_eq_nil htask, List.nil_append]
    exact List.flatMap_eq_nil_iff.mpr htail
  have hemitted : s.handled.flatMap Handled.emitted = s.handled.flatMap Handled.data := by
    apply List.flatMap_congr
    intro e he
    rw [hc.emitted e he, h.works e he]
    rfl
  have hstream := hc.stream
  rw [TcpConnection.stream, hempty, htaken, List.append_nil, List.append_nil, hemitted] at hstream
  exact hstream

/-- Everything that was sent before has ended. -/
theorem Orderly.sent (h : Orderly s) (hc : Carried s) (hnone : s.NoneWaits) {p : Promise}
    (hp : s.promised = some p) {k : ℕ} (hk : k < p.queued) :
    ∃ e ∈ s.handled, e.call = some k ∧ s.queuedSends[k]? = some e.data := by
  have hmem : k ∈ s.handled.filterMap Handled.call ++ s.outputs.filterMap Functor.call := by
    rw [hc.order, List.mem_range]
    exact hk.trans_le (h.promised p hp).1
  rcases List.mem_append.mp hmem with hmem | hmem
  · obtain ⟨e, he, hcall⟩ := List.mem_filterMap.mp hmem
    exact ⟨e, he, hcall, hc.data e he k hcall⟩
  · obtain ⟨f, hf, hcall⟩ := List.mem_filterMap.mp hmem
    have hle := hnone p hp f hf k hcall
    omega

/-- A `shutdownWrite` when nothing waits. -/
theorem Orderly.shutdownWrite (h : Orderly s) (hc : Carried s) {s' : ConnectionSystem n}
    {task : Task} {rest : List Task} (htodo : s.todo = task :: rest)
    (htask : task.isBufferRest = false)
    (hwriting : s.conn.channel_.isWriting = false) (hreading : s.conn.channel_.isReading = true)
    (hnone : s.NoneWaits) (hstate : s'.conn.state_ ≠ .kConnected)
    (hchannel : s'.conn.channel_ = s.conn.channel_)
    (hbuffer : s'.conn.outputBuffer_ = s.conn.outputBuffer_)
    (hsocket : s'.conn.socket_ = s.conn.socket_ ++ [.shutdownWrite])
    (hpromised : s'.promised = s.promised) (hsends : s'.queuedSends = s.queuedSends)
    (hhandled : s'.handled = s.handled) (hqueues : s.conn.Queues s'.conn)
    (htodo' : s'.todo = rest) : Orderly s' := by
  constructor
  · rw [TcpConnection.Interested, hchannel, hbuffer]
    exact h.interested
  · rw [hhandled]
    exact h.works
  · exact fun _ _ _ _ hmem => h.rest _ _ _ _ (rest_of_todo htodo (.inl htodo') hmem)
  · exact fun hnew => absurd hnew hstate
  · rw [hpromised, hsends, hhandled]
    exact h.promised
  · rw [hpromised]
    intro p hp
    exact (h.behind p hp).sublist (outputs_sublist_of_todo htodo hqueues (.inl htodo'))
  · rw [DataFirst, hpromised, hhandled, hsends, hsocket]
    intro p hp before after hsplit
    rcases exists_split_of_snoc hsplit with rfl | ⟨after', hold⟩
    · exact ⟨s.handled, List.prefix_rfl, (h.promised p hp).2, fun k hk => h.sent hc hnone hp hk,
        h.written_eq hc htodo htask hwriting hreading⟩
    · exact h.dataFirst p hp before after' hold

/-- `shutdownInLoop` on a connection that is not connected any more. -/
theorem Orderly.shutdownInLoop (h : Orderly s) (hc : Carried s) {task : Task} {rest : List Task}
    (htodo : s.todo = task :: rest) (htask : task.isBufferRest = false) {c : TcpConnection}
    (hstate : c.state_ ≠ .kConnected) (hchannel : c.channel_ = s.conn.channel_)
    (hbuffer : c.outputBuffer_ = s.conn.outputBuffer_) (hsocket : c.socket_ = s.conn.socket_)
    (hloop : c.loop_ = s.conn.loop_)
    (hok : s.conn.channel_.isWriting = true ∨ s.conn.channel_.isReading = true ∧ s.NoneWaits) :
    Orderly { s with conn := c.shutdownInLoop, todo := rest } := by
  have hqueues : s.conn.Queues c.shutdownInLoop :=
    .of_eq (by rw [TcpConnection.shutdownInLoop_loop_, hloop])
  cases hwriting : s.conn.channel_.isWriting with
  | true =>
      have hc' : c.shutdownInLoop = c := by
        rw [TcpConnection.shutdownInLoop, hchannel, hwriting]
        rfl
      rw [hc'] at hqueues ⊢
      refine h.of_steady (steady_of_todo htodo ?_ ?_ (.of_eq hsocket) rfl rfl rfl rfl hqueues
        (.inl rfl))
      · rw [TcpConnection.Interested, TcpConnection.Interested, hchannel, hbuffer]
        exact id
      · exact fun hnew => absurd hnew hstate
  | false =>
      obtain ⟨hreading, hnone⟩ : s.conn.channel_.isReading = true ∧ s.NoneWaits := by
        rcases hok with hyes | hyes
        · rw [hwriting] at hyes
          cases hyes
        · exact hyes
      apply h.shutdownWrite hc htodo htask hwriting hreading hnone
      · simpa using hstate
      · rw [TcpConnection.shutdownInLoop_channel_, hchannel]
      · rw [TcpConnection.shutdownInLoop_outputBuffer_, hbuffer]
      · rw [TcpConnection.shutdownInLoop, hchannel, hwriting, ← hsocket]
        rfl
      · rfl
      · rfl
      · rfl
      · exact hqueues
      · rfl

/-! ## The steps of a `sendInLoop` -/

theorem fault_eq_false {c : TcpConnection} {data : List UInt8} {o : Outside}
    (h : SocketWorks (n := n) (.execute o)) : (c.writeDirect data o.written).2.2 = false := by
  by_contra hfault
  rcases c.writeDirect_faultError data o.written (by simpa using hfault) with heq | heq
  · exact h.1 heq
  · exact h.2 heq

theorem Orderly.loopSend (h : Orderly s) {o : Outside} {data : List UInt8} {rest : List Task}
    (htodo : s.todo = .sendInLoop data :: rest) (hok : SocketWorks (n := n) (.execute o)) :
    Orderly (s.runTask o rest (.sendInLoop data)) := by
  obtain ⟨calls, hsocket, hcalls⟩ := s.conn.writes_writeDirect data o.written
  have hqueues : s.conn.Queues (s.runTask o rest (.sendInLoop data)).conn :=
    (TcpConnection.queues_writeDirect _ _ _).trans (TcpConnection.queues_bufferRest _ _ _)
  apply h.of_steady
  constructor
  · intro hinterested hreading
    refine TcpConnection.interested_sendInLoop s.conn data o.written (hinterested ?_)
    simpa [runTask] using hreading
  · exact fun _ _ _ _ hmem => rest_of_todo htodo (.inl rfl) hmem
  · refine fun hnew => ⟨?_, fun _ => id⟩
    simpa [runTask] using hnew
  · exact ⟨calls, by simpa [runTask] using hsocket, hcalls⟩
  · rfl
  · exact List.prefix_rfl
  · refine ⟨_, rfl, fun e he => ?_⟩
    obtain rfl := List.mem_singleton.mp he
    exact fault_eq_false hok
  · refine ⟨[], ?_, List.forall_mem_nil _⟩
    rw [List.append_nil]
    exact outputs_sublist_of_todo htodo hqueues (.inl rfl)

theorem Orderly.writeDirect (h : Orderly s) {o : Outside} {data len call : ℕ} {rest : List Task}
    (htodo : s.todo = .functor (.sendInLoop data len call) :: rest)
    (hok : SocketWorks (n := n) (.execute o)) :
    Orderly (s.runFunctor o rest (.sendInLoop data len call)) := by
  have houtputs : (s.runFunctor o rest (.sendInLoop data len call)).outputs = s.outputs := by
    rw [outputs, outputs, htodo]
    simp only [runFunctor]
    rw [(TcpConnection.queues_writeDirect _ _ _).filter_isOutput]
    rfl
  have htodo' : (s.runFunctor o rest (.sendInLoop data len call)).todo =
      .bufferRest ((s.readString data len o.garbage).take
          (s.conn.writeDirect (s.readString data len o.garbage) o.written).2.1) data len call
        (s.conn.writeDirect (s.readString data len o.garbage) o.written).2.2 :: rest := rfl
  apply h.of_steady
  constructor
  · simp [runFunctor, TcpConnection.Interested]
  · rw [htodo', htodo]
    intro taken data' len' call' hmem
    rcases List.mem_cons.mp hmem with heq | hmem
    · rw [Task.bufferRest.injEq, fault_eq_false hok] at heq
      simp at heq
    · exact List.mem_cons_of_mem _ hmem
  · refine fun hnew => ⟨?_, fun _ => id⟩
    simpa [runFunctor] using hnew
  · exact TcpConnection.writes_writeDirect _ _ _
  · rfl
  · exact List.prefix_rfl
  · exact ⟨[], (List.append_nil _).symm, List.forall_mem_nil _⟩
  · exact ⟨[], by rw [houtputs, List.append_nil], List.forall_mem_nil _⟩

theorem Orderly.bufferRest (h : Orderly s) (o : Outside) {taken : List UInt8}
    {data len call : ℕ} {fault : Bool} {rest : List Task}
    (htodo : s.todo = .bufferRest taken data len call fault :: rest) :
    Orderly (s.runTask o rest (.bufferRest taken data len call fault)) := by
  have hqueues : s.conn.Queues (s.runTask o rest (.bufferRest taken data len call fault)).conn :=
    TcpConnection.queues_bufferRest _ _ _
  apply h.of_steady
  constructor
  · intro hinterested hreading
    refine TcpConnection.interested_bufferRest s.conn _ fault (hinterested ?_)
    simpa [runTask] using hreading
  · exact fun _ _ _ _ hmem => rest_of_todo htodo (.inl rfl) hmem
  · refine fun hnew => ⟨?_, fun _ => id⟩
    simpa [runTask] using hnew
  · exact .of_eq (by simp [runTask])
  · rfl
  · exact List.prefix_rfl
  · refine ⟨_, rfl, fun e he => ?_⟩
    obtain rfl := List.mem_singleton.mp he
    cases fault with
    | true => exact absurd (htodo ▸ List.mem_cons_self) (h.rest taken data len call)
    | false => rfl
  · refine ⟨[], ?_, List.forall_mem_nil _⟩
    rw [List.append_nil]
    exact outputs_sublist_of_todo htodo hqueues (.inl rfl)

/-! ## Every step -/

theorem Orderly.runFunctor (h : Orderly s) (hc : Carried s) {o : Outside} {rest : List Task}
    {f : Functor} (hbegun : Begun s) (htodo : s.todo = .functor f :: rest)
    (hworks : SocketWorks (n := n) (.execute o)) (hok : s.NotOvertaken (.execute o)) :
    Orderly (s.runFunctor o rest f) := by
  cases f with
  | connectEstablished => exact absurd (htodo ▸ List.mem_cons_self) hbegun.todo
  | connectDestroyed =>
      refine h.of_steady (steady_of_todo htodo id id (.of_eq rfl) rfl rfl rfl rfl
        (.refl _) (.inr ⟨_, ?_, rfl⟩))
      split <;> rfl
  | sendInLoop data len call => exact h.writeDirect htodo hworks
  | shutdownInLoop =>
      have houtputs : s.outputs = .shutdownInLoop ::
          (rest.filterMap Task.output ++ s.conn.loop_.pendingFuntors_.filter Functor.isOutput) := by
        rw [outputs, htodo]
        rfl
      have hstate : s.conn.state_ ≠ .kConnected :=
        fun hconnected => (h.connected hconnected).1 (houtputs ▸ List.mem_cons_self)
      -- the queue has kept the order of the calls
      have hnone : s.NoneWaits := by
        intro p hp f hf k hk
        have hbehind := h.behind p hp
        rw [houtputs, List.pairwise_cons] at hbehind
        rw [houtputs] at hf
        rcases List.mem_cons.mp hf with rfl | hf
        · cases hk
        · exact hbehind.1 f hf rfl k hk
      exact h.shutdownInLoop hc htodo rfl hstate rfl rfl rfl rfl
        ((hok.1 (doing_execute htodo o)).imp_right fun hreading => ⟨hreading, hnone⟩)
  | writeCompleteCallback_ =>
      exact h.of_steady (steady_of_todo htodo id id (.of_eq rfl) rfl rfl rfl rfl
        (.refl _) (.inl rfl))
  | highWaterMarkCallback_ bytes =>
      exact h.of_steady (steady_of_todo htodo id id (.of_eq rfl) rfl rfl rfl rfl
        (.refl _) (.inl rfl))

theorem Orderly.removeConnection (h : Orderly s) : Orderly s.removeConnection := by
  obtain ⟨cbs, inConnections, baseQueue, hcbs, heq⟩ := s.removeConnection_eq
  rw [heq]
  refine h.of_steady (steady_of_todo_eq rfl rfl rfl rfl (fun hnew => ⟨hnew, fun _ => id⟩) rfl rfl
    List.prefix_rfl cbs rfl fun cb hcb => ?_)
  rw [hcbs cb hcb]
  simp [Functor.call]

theorem Orderly.runTask (h : Orderly s) (hc : Carried s) {o : Outside} {task : Task}
    {rest : List Task} (hbegun : Begun s) (htodo : s.todo = task :: rest)
    (hworks : SocketWorks (n := n) (.execute o)) (hok : s.NotOvertaken (.execute o)) :
    Orderly (s.runTask o rest task) := by
  have hnothing : s.conn.Writes s.conn := .of_eq rfl
  cases task with
  | handleClose =>
      refine h.of_steady (steady_of_todo htodo ?_ ?_ (.of_eq rfl) rfl rfl rfl rfl
        (TcpConnection.queues_setDisconnected _) (.inr ⟨.closeCallback, rfl, rfl⟩))
      · simp [ConnectionSystem.runTask]
      · simp [ConnectionSystem.runTask]
  | handleError =>
      exact h.of_steady (steady_of_todo htodo id id hnothing rfl rfl rfl rfl (.refl _) (.inl rfl))
  | handleRead =>
      refine h.of_steady (steady_of_todo htodo ?_ ?_ ?_ rfl rfl rfl rfl
        (TcpConnection.queues_readInput _ _) ?_)
      · simp [ConnectionSystem.runTask, TcpConnection.Interested]
      · simp [ConnectionSystem.runTask]
      · exact .of_eq (TcpConnection.readInput_socket_ _ _)
      · simp only [ConnectionSystem.runTask]
        split
        · exact .inr ⟨_, rfl, rfl⟩
        · exact .inl rfl
  | handleWrite =>
      refine h.of_steady (steady_of_todo htodo ?_ ?_ ?_ rfl rfl rfl rfl
        (TcpConnection.queues_writeOutput _ _) ?_)
      · intro hinterested hreading
        apply TcpConnection.interested_writeOutput
        apply hinterested
        simpa [ConnectionSystem.runTask] using hreading
      · simp [ConnectionSystem.runTask]
      · exact TcpConnection.writes_writeOutput _ _
      · simp only [ConnectionSystem.runTask]
        split
        · exact .inr ⟨_, rfl, rfl⟩
        · exact .inl rfl
  | functor f => exact h.runFunctor hc hbegun htodo hworks hok
  | drained =>
      simp only [ConnectionSystem.runTask]
      split
      · next hstate =>
          exact h.shutdownInLoop hc htodo rfl (by simp [hstate]) rfl rfl rfl rfl
            (hok.2 (.inr ⟨doing_execute htodo o, hstate⟩))
      · exact h.of_steady
          (steady_of_todo htodo id id hnothing rfl rfl rfl rfl (.refl _) (.inl rfl))
  | closeCallback =>
      have hinvoked : Orderly { s with conn := s.conn.invoke .closeCallback_, todo := rest } :=
        h.of_steady (steady_of_todo htodo id id hnothing rfl rfl rfl rfl
          (.of_eq rfl) (.inl rfl))
      exact hinvoked.removeConnection
  | sendInLoop data => exact h.loopSend htodo hworks
  | storeDisconnecting =>
      exact h.shutdownInLoop hc htodo rfl (by simp [TcpConnection.setState]) rfl rfl rfl rfl
        (hok.2 (.inl (doing_execute htodo o)))
  | bufferRest taken data len call fault => exact h.bufferRest o htodo
  | storeDisconnected =>
      refine h.of_steady (steady_of_todo htodo ?_ ?_ (.of_eq rfl) rfl rfl rfl rfl
        (TcpConnection.queues_setDisconnected _) (.inr ⟨.remove, rfl, rfl⟩))
      · simp [ConnectionSystem.runTask]
      · simp [ConnectionSystem.runTask]
  | remove =>
      exact h.of_steady (steady_of_todo htodo id id hnothing rfl rfl rfl rfl
        (.of_eq rfl) (.inl rfl))

/-- The loop's thread gets new tasks, and what waits for the output stays as it is. -/
theorem steady_of_outputs {s' : ConnectionSystem n}
    (hinterested : (s.conn.channel_.isReading = true → s.conn.Interested) →
      s'.conn.channel_.isReading = true → s'.conn.Interested)
    (hstate : s'.conn.state_ = s.conn.state_) (hsocket : s'.conn.socket_ = s.conn.socket_)
    (hthreads : s'.threads = s.threads) (hpromised : s'.promised = s.promised)
    (hsends : s'.queuedSends = s.queuedSends) (hhandled : s'.handled = s.handled)
    (houtputs : s'.outputs = s.outputs)
    (htodo : ∀ t ∈ s'.todo, t ∈ s.todo ∨ t.isBufferRest = false) : Steady s s' := by
  constructor
  · exact hinterested
  · intro taken data len call hmem
    rcases htodo _ hmem with hold | hnot
    · exact hold
    · cases hnot
  · rw [hstate, hthreads]
    exact fun hnew => ⟨hnew, fun _ => id⟩
  · exact .of_eq hsocket
  · exact hpromised
  · rw [hsends]
  · exact ⟨[], by rw [hhandled, List.append_nil], List.forall_mem_nil _⟩
  · exact ⟨[], by rw [houtputs, List.append_nil], List.forall_mem_nil _⟩

/-- A call of `shutdown` that finds the connection connected comes before any shutdown. -/
theorem Orderly.promise (h : Orderly s) (hstate : s.conn.state_ = .kConnected)
    {s' : ConnectionSystem n} (hconn : s'.conn = s.conn) (hhandled : s'.handled = s.handled)
    (hpromised : s'.promised = some ⟨s.queuedSends.length, s.handled.length⟩)
    (hsends : s'.queuedSends = s.queuedSends) (houtputs : s'.outputs = s.outputs)
    (hthreads : ∀ thread, s'.threads thread = .queueShutdown → s.threads thread = .queueShutdown)
    (htodo : ∀ t ∈ s'.todo, t ∈ s.todo ∨ t.isBufferRest = false) : Orderly s' := by
  obtain ⟨hnot, hnot', hnone⟩ := h.connected hstate
  constructor
  · rw [hconn]
    exact h.interested
  · rw [hhandled]
    exact h.works
  · intro taken data len call hmem
    rcases htodo _ hmem with hold | hfalse
    · exact h.rest _ _ _ _ hold
    · cases hfalse
  · rw [hconn, houtputs]
    exact fun _ => ⟨hnot, hnot', fun thread hthread => hnone thread (hthreads thread hthread)⟩
  · rw [hpromised, hsends, hhandled]
    rintro p hp
    cases hp
    exact ⟨le_rfl, le_rfl⟩
  · rw [houtputs]
    intro p hp
    apply List.pairwise_of_forall_mem_list
    rintro f hf g - rfl
    exact absurd hf hnot
  · rw [DataFirst, hconn]
    intro p hp before after hsplit
    exact absurd (hsplit ▸ List.mem_append_right before List.mem_cons_self) hnot'

/-- A thread queues `shutdownInLoop`, behind everything that waits. -/
theorem Orderly.queueShutdown (h : Orderly s) {thread : Fin n}
    (hthread : s.threads thread = .queueShutdown) : Orderly (s.next (.queueShutdown thread)) := by
  have hstate : s.conn.state_ ≠ .kConnected :=
    fun hconnected => (h.connected hconnected).2.2 thread hthread
  have houtputs : (s.next (.queueShutdown thread)).outputs = s.outputs ++ [.shutdownInLoop] := by
    simp [outputs, next, queueInLoop, TcpConnection.queueInLoop, EventLoop.queueInLoop,
      Functor.isOutput]
  refine ⟨h.interested, h.works, h.rest, fun hnew => absurd hnew hstate, h.promised, ?_,
    h.dataFirst⟩
  intro p hp
  rw [houtputs]
  refine List.pairwise_append.mpr ⟨h.behind p hp, List.pairwise_singleton _ _, ?_⟩
  intro f _ g hg _ k hk
  obtain rfl := List.mem_singleton.mp hg
  cases hk

theorem Orderly.next (h : Orderly s) (hc : Carried s) (hbegun : Begun s) {a : Action n}
    (hen : s.Enabled a) (hworks : SocketWorks a) (hok : s.NotOvertaken a) :
    Orderly (s.next a) := by
  have hnil : s.conn.loop_.pendingFuntors_ = s.conn.loop_.pendingFuntors_ ++ [] := by simp
  have hthread {thread : Fin n} {pc : ThreadPc} (hpc : pc ≠ .queueShutdown) (thread' : Fin n) :
      Function.update s.threads thread pc thread' = .queueShutdown →
        s.threads thread' = .queueShutdown := by
    rcases eq_or_ne thread' thread with rfl | hne
    · rw [Function.update_self]
      exact fun heq => absurd heq hpc
    · rw [Function.update_of_ne hne]
      exact id
  cases a with
  | callSend thread cell =>
      simp only [ConnectionSystem.next]
      split
      · exact h.of_steady (steady_of_todo_eq rfl rfl rfl rfl
          (fun hnew => ⟨hnew, hthread (by simp)⟩) rfl rfl List.prefix_rfl [] hnil
          (List.forall_mem_nil _))
      · exact h
  | queueSend thread =>
      obtain ⟨cell, hcell⟩ := exists_of_isQueueSend hen
      rw [next_queueSend hcell]
      refine h.of_steady (steady_of_todo_eq rfl rfl rfl rfl
        (fun hnew => ⟨hnew, hthread (by simp)⟩) rfl rfl (List.prefix_append _ _) _ rfl ?_)
      intro f hf
      obtain rfl := List.mem_singleton.mp hf
      refine ⟨by simp, fun k hk => ?_⟩
      cases hk
      exact le_rfl
  | callShutdown thread =>
      simp only [ConnectionSystem.next]
      split
      · next hstate =>
          exact h.promise hstate rfl rfl rfl rfl rfl (hthread (by simp)) fun t ht => .inl ht
      · exact h
  | storeDisconnecting thread =>
      exact h.of_steady (steady_of_todo_eq rfl rfl rfl rfl
        (by simp [ConnectionSystem.next, TcpConnection.setState]) rfl rfl List.prefix_rfl [] hnil
        (List.forall_mem_nil _))
  | queueShutdown thread => exact h.queueShutdown hen
  | assign cell value =>
      exact h.of_steady (steady_of_todo_eq rfl rfl rfl rfl (fun hnew => ⟨hnew, fun _ => id⟩) rfl
        rfl List.prefix_rfl [] hnil (List.forall_mem_nil _))
  | poll revents =>
      exact h.of_steady (steady_of_outputs id rfl rfl rfl rfl rfl rfl (outputs_poll hen.1 revents)
        fun t ht => .inr (isBufferRest_poll s revents t ht))
  | doPendingFunctors =>
      exact h.of_steady (steady_of_outputs id rfl rfl rfl rfl rfl rfl
        (outputs_doPendingFunctors hen) fun t ht => .inr (isBufferRest_doPendingFunctors s t ht))
  | loopSend data =>
      simp only [ConnectionSystem.next]
      split
      · refine h.of_steady (steady_of_outputs id rfl rfl rfl rfl rfl rfl rfl fun t ht => ?_)
        rcases List.mem_cons.mp ht with rfl | ht
        · exact .inr rfl
        · exact .inl ht
      · exact h
  | loopShutdown =>
      simp only [ConnectionSystem.next]
      split
      · next hstate =>
          refine h.promise hstate rfl rfl rfl rfl rfl (fun _ => id) fun t ht => ?_
          rcases List.mem_cons.mp ht with rfl | ht
          · exact .inr rfl
          · exact .inl ht
      · exact h
  | execute o =>
      obtain ⟨task, rest, htodo⟩ := List.exists_cons_of_ne_nil hen.1
      rw [next_execute htodo]
      exact h.runTask hc hbegun htodo hworks hok
  | removeConnectionInLoop =>
      refine h.of_steady (steady_of_todo_eq rfl rfl rfl rfl (fun hnew => ⟨hnew, fun _ => id⟩) rfl
        rfl List.prefix_rfl [.connectDestroyed] rfl fun f hf => ?_)
      obtain rfl := List.mem_singleton.mp hf
      simp [Functor.call]
  | destroyServer =>
      simp only [ConnectionSystem.next]
      split
      · split
        · next hsame =>
            have htodo : s.todo = [] := hen.2 hsame
            refine h.of_steady (steady_of_outputs id rfl rfl rfl rfl rfl rfl ?_ fun t ht => ?_)
            · simp [outputs, htodo, Task.output, Functor.isOutput]
            · obtain rfl := List.mem_singleton.mp ht
              exact .inr rfl
        · refine h.of_steady (steady_of_todo_eq rfl rfl rfl rfl
            (fun hnew => ⟨hnew, fun _ => id⟩) rfl rfl List.prefix_rfl [.connectDestroyed] rfl
            fun f hf => ?_)
          obtain rfl := List.mem_singleton.mp hf
          simp [Functor.call]
      · exact h.of_steady (steady_of_todo_eq rfl rfl rfl rfl (fun hnew => ⟨hnew, fun _ => id⟩) rfl
          rfl List.prefix_rfl [] hnil (List.forall_mem_nil _))

theorem Waiting.orderly (h : Waiting s) {rest : List Task}
    (htodo : s.todo = .functor .connectEstablished :: rest) : Orderly (s.begin rest) := by
  obtain ⟨address, fd, cbs, pending, hconn⟩ := h.conn
  have houtputs : (s.begin rest).outputs = [] := by
    have hsub : (s.begin rest).outputs.Sublist s.outputs :=
      outputs_sublist_of_todo htodo (TcpConnection.queues_connectEstablished _) (.inl rfl)
    rwa [h.outputs_eq_nil, List.sublist_nil] at hsub
  have hpromised : (s.begin rest).promised = none := h.promised
  have hhandled : (s.begin rest).handled = [] := h.handled
  have hsocket : (s.begin rest).conn.socket_ = [] := by
    rw [begin, hconn]
    rfl
  constructor
  · intro _
    simp only [begin, TcpConnection.Interested, TcpConnection.isWriting_connectEstablished,
      TcpConnection.connectEstablished_outputBuffer_]
    rw [hconn]
    refine iff_of_false ?_ (not_not_intro rfl)
    simp [TcpConnection.new, Channel.isWriting, kNoneEvent]
  · rw [hhandled]
    exact List.forall_mem_nil _
  · intro taken data len call hmem
    have hnone := h.output_eq_none (List.mem_append_left _ (htodo ▸ List.mem_cons_of_mem _ hmem))
    cases hnone
  · rw [houtputs, hsocket]
    refine fun _ => ⟨List.not_mem_nil, List.not_mem_nil, fun thread hthread => ?_⟩
    have hidle : s.threads thread = .queueShutdown := hthread
    rw [h.threads thread] at hidle
    cases hidle
  · intro p hp
    rw [hpromised] at hp
    cases hp
  · intro p hp
    rw [hpromised] at hp
    cases hp
  · intro p hp
    rw [hpromised] at hp
    cases hp

/-! ## Every run -/

/-- In a run in which the socket works, the strings that are sent stay as they are until they
have been read, and every step meets the condition, `shutdown` does not overtake data. -/
theorem dataFirst_of_notOvertaken {address fd : ℕ} {cbs : Callbacks}
    {cells : ℕ → Option (List UInt8)} {sameLoop : Bool} {as : List (Action n)}
    (hruns : (connectionSystem n).Runs (newConnection n address fd cbs cells sameLoop) as)
    (hok : (connectionSystem n).Always
      (fun s a => SocketWorks a ∧ s.KeepsStrings a ∧ s.NotOvertaken a)
      (newConnection n address fd cbs cells sameLoop) as) :
    DataFirst ((connectionSystem n).run (newConnection n address fd cbs cells sameLoop) as) := by
  rcases invariant_of_begun (J := fun s => Carried s ∧ Orderly s)
    (p := fun s a => SocketWorks a ∧ s.KeepsStrings a ∧ s.NotOvertaken a)
    (fun s rest hs htodo => ⟨hs.carried.begin htodo, hs.orderly htodo⟩)
    (fun s a hs hJ hen hperm => ⟨hJ.1.next hs hen hperm.2.1,
      hJ.2.next hJ.1 hs hen hperm.1 hperm.2.2⟩) hruns hok with hwaiting | ⟨-, -, horderly⟩
  · intro p hp
    rw [hwaiting.promised] at hp
    cases hp
  · exact horderly.dataFirst

/-- A thread sends and shuts down, and the kernel takes one byte of two at first. -/
def sentThenShutDown : List (Action 1) :=
  [.doPendingFunctors, .execute {}, .callSend oneThread 0, .queueSend oneThread,
    .callShutdown oneThread, .storeDisconnecting oneThread, .queueShutdown oneThread,
    .doPendingFunctors, .execute { written := .ok 1 }, .execute {}, .execute {}, .poll EPOLLOUT,
    .execute { written := .ok 1 }, .execute {}]

theorem dataFirst_sentThenShutDown :
    DataFirst ((connectionSystem 1).run (newConnection 1 0 5 {} twoBytes false) sentThenShutDown) :=
  dataFirst_of_notOvertaken (by decide +kernel) (by decide +kernel)

/-- A thread sends, and then the thread of the loop shuts down. -/
def overtaken : List (Action 1) :=
  [.doPendingFunctors, .execute {}, .callSend oneThread 0, .queueSend oneThread, .loopShutdown,
    .execute {}]

theorem not_dataFirst_overtaken :
    (connectionSystem 1).Runs (newConnection 1 0 5 {} twoBytes false) overtaken ∧
      ¬ DataFirst ((connectionSystem 1).run (newConnection 1 0 5 {} twoBytes false) overtaken) := by
  refine ⟨by decide +kernel, fun h => ?_⟩
  obtain ⟨done, hdone, -, hsent, -⟩ := h ⟨1, 0⟩ rfl [] [] rfl
  obtain ⟨e, he, -⟩ := hsent 0 Nat.one_pos
  obtain rfl : done = [] := List.prefix_nil.mp hdone
  cases he

end ConnectionSystem

end CkServer
