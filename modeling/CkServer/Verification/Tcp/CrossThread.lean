import CkServer.Verification.Tcp.System

/-! # Sending from another thread

`send` in another thread queues a `sendInLoop` with the address of the string's bytes. The
queue keeps the order of the calls, and as long as nobody changes a string whose `sendInLoop`
still waits, every `sendInLoop` writes or buffers what the string held at its call. -/

namespace CkServer

def Functor.isOutput : Functor → Bool
  | .sendInLoop _ _ _ => true
  | .shutdownInLoop => true
  | _ => false

/-- The call of `send` that a functor belongs to. -/
def Functor.call : Functor → Option ℕ
  | .sendInLoop _ _ call => some call
  | _ => none

/-- The functor for the output that a task is, or is the rest of. -/
def Task.output : Task → Option Functor
  | .functor f => if f.isOutput then some f else none
  | .bufferRest _ data len call _ => some (.sendInLoop data len call)
  | _ => none

/-- The bytes written by a `sendInLoop` that is in its middle. -/
def Task.taken : Task → List UInt8
  | .bufferRest taken _ _ _ _ => taken
  | _ => []

def Task.isBufferRest : Task → Bool
  | .bufferRest _ _ _ _ _ => true
  | _ => false

theorem Task.taken_eq_nil {t : Task} (h : t.isBufferRest = false) : t.taken = [] := by
  cases t with
  | bufferRest taken data len call fault => cases h
  | _ => rfl

theorem Task.isBufferRest_eq_false {t : Task} (h : ∀ f, t.output = some f → f.call = none) :
    t.isBufferRest = false := by
  cases t with
  | bufferRest taken data len call fault => cases h _ rfl
  | _ => rfl

/-- A task without output is no `sendInLoop`. -/
theorem Task.call_of_output {t : Task} (h : t.output = none) :
    ∀ f, t.output = some f → f.call = none := by
  rw [h]
  exact fun f hf => absurd hf (Option.some_ne_none f).symm

theorem filterMap_output_functors (fs : List Functor) :
    (fs.map Task.functor).filterMap Task.output = fs.filter Functor.isOutput := by
  rw [List.filterMap_map, ← List.filterMap_eq_filter]
  rfl

theorem TcpConnection.Queues.filter_isOutput {c c' : TcpConnection} (h : c.Queues c') :
    c'.loop_.pendingFuntors_.filter Functor.isOutput =
      c.loop_.pendingFuntors_.filter Functor.isOutput := by
  obtain ⟨cbs, hcbs, heq⟩ := h
  have hnone : cbs.filter Functor.isOutput = [] := by
    apply List.filter_eq_nil_iff.mpr
    intro cb hcb houtput
    have huser := hcbs cb hcb
    cases cb <;> simp [Functor.isUserCallback, Functor.isOutput] at huser houtput
  rw [heq, List.filter_append, hnone, List.append_nil]

/-- A functor finds the bytes of its call at its address. -/
def Functor.Finds (cells : ℕ → Option (List UInt8)) (sends : List (List UInt8)) : Functor → Prop
  | .sendInLoop data len call =>
      len = (sends.getD call []).length ∧ sends.getD call [] <+: (cells data).getD []
  | _ => True

instance (cells : ℕ → Option (List UInt8)) (sends : List (List UInt8)) :
    ∀ f : Functor, Decidable (f.Finds cells sends)
  | .sendInLoop data len call =>
      inferInstanceAs (Decidable
        (len = (sends.getD call []).length ∧ sends.getD call [] <+: (cells data).getD []))
  | .connectEstablished => .isTrue trivial
  | .connectDestroyed => .isTrue trivial
  | .shutdownInLoop => .isTrue trivial
  | .writeCompleteCallback_ => .isTrue trivial
  | .highWaterMarkCallback_ _ => .isTrue trivial

namespace ConnectionSystem

variable {n : ℕ} {s : ConnectionSystem n}

/-- The functors for the output that have not ended, in their order. -/
def outputs (s : ConnectionSystem n) : List Functor :=
  s.todo.filterMap Task.output ++ s.conn.loop_.pendingFuntors_.filter Functor.isOutput

/-! ## The property and the condition -/

/-- The calls of `send` in other threads come to an end in their order, each with what the
string held at the call. A `sendInLoop` emits all of it, or nothing if the socket has failed,
and the emitted bytes are what is written and buffered. -/
structure TakesData (s : ConnectionSystem n) : Prop where
  order : s.handled.filterMap Handled.call ++ s.outputs.filterMap Functor.call =
    List.range s.queuedSends.length
  data : ∀ h ∈ s.handled, ∀ k, h.call = some k → s.queuedSends[k]? = some h.data
  emitted : ∀ h ∈ s.handled, h.emitted = if h.faultError then [] else h.data
  stream : s.conn.stream = s.handled.flatMap Handled.emitted ++ s.todo.flatMap Task.taken

/-- A string is changed only so that each `sendInLoop` that waits still finds its bytes. -/
def KeepsStrings (s : ConnectionSystem n) : Action n → Prop
  | .assign cell value =>
      ∀ f ∈ s.outputs, f.Finds (Function.update s.cells cell value) s.queuedSends
  | _ => True

instance (s : ConnectionSystem n) : ∀ a, Decidable (s.KeepsStrings a) := by
  intro a
  unfold KeepsStrings
  split <;> infer_instance

/-! ## The invariant -/

structure Carried (s : ConnectionSystem n) : Prop extends TakesData s where
  finds : ∀ f ∈ s.outputs, f.Finds s.cells s.queuedSends
  rest : ∀ taken data len call fault, .bufferRest taken data len call fault ∈ s.todo →
    taken <+: s.queuedSends.getD call [] ∧ (fault = true → taken = [])
  tail : ∀ t ∈ s.todo.tail, t.taken = []

/-- A `sendInLoop` reads the bytes of its call. -/
theorem readString_of_finds {data len call : ℕ}
    (h : (Functor.sendInLoop data len call).Finds s.cells s.queuedSends) (garbage : List UInt8) :
    s.readString data len garbage = s.queuedSends.getD call [] := by
  obtain ⟨hlen, more, hmore⟩ := h
  rw [readString, ← hmore, hlen, List.append_assoc, List.append_assoc]
  exact List.take_left

/-- A step that begins and ends no `sendInLoop`. -/
structure Silent (s s' : ConnectionSystem n) : Prop where
  cells : s'.cells = s.cells
  queuedSends : s'.queuedSends = s.queuedSends
  handled : s'.handled = s.handled
  stream : s'.conn.stream = s.conn.stream
  calls : s'.outputs.filterMap Functor.call = s.outputs.filterMap Functor.call
  outputs : ∀ f ∈ s'.outputs, f ∈ s.outputs ∨ f.call = none
  taken : s'.todo.flatMap Task.taken = s.todo.flatMap Task.taken
  todo : ∀ t ∈ s'.todo, t ∈ s.todo ∨ t.isBufferRest = false
  tail : (∀ t ∈ s.todo.tail, t.taken = []) → ∀ t ∈ s'.todo.tail, t.taken = []

theorem Functor.finds_of_call {cells : ℕ → Option (List UInt8)} {sends : List (List UInt8)}
    {f : Functor} (h : f.call = none) : f.Finds cells sends := by
  cases f with
  | sendInLoop data len call => cases h
  | _ => trivial

theorem Carried.of_silent (h : Carried s) {s' : ConnectionSystem n} (hs : Silent s s') :
    Carried s' := by
  refine ⟨⟨?_, ?_, ?_, ?_⟩, ?_, ?_, hs.tail h.tail⟩
  · rw [hs.handled, hs.calls, hs.queuedSends]
    exact h.order
  · rw [hs.handled, hs.queuedSends]
    exact h.data
  · rw [hs.handled]
    exact h.emitted
  · rw [hs.stream, hs.handled, hs.taken]
    exact h.stream
  · rw [hs.cells, hs.queuedSends]
    intro f hf
    rcases hs.outputs f hf with hold | hnone
    · exact h.finds f hold
    · exact Functor.finds_of_call hnone
  · rw [hs.queuedSends]
    intro taken data len call fault hmem
    rcases hs.todo _ hmem with hold | hnone
    · exact h.rest taken data len call fault hold
    · cases hnone

/-- A thread has done something, or the connection has queued a callback. -/
theorem silent_of_todo_eq {s' : ConnectionSystem n} (hcells : s'.cells = s.cells)
    (hsends : s'.queuedSends = s.queuedSends) (hhandled : s'.handled = s.handled)
    (hstream : s'.conn.stream = s.conn.stream) (htodo : s'.todo = s.todo)
    (cbs : List Functor) (hcbs : ∀ cb ∈ cbs, cb.call = none)
    (hpending : s'.conn.loop_.pendingFuntors_ = s.conn.loop_.pendingFuntors_ ++ cbs) :
    Silent s s' := by
  have houtputs : s'.outputs = s.outputs ++ cbs.filter Functor.isOutput := by
    rw [outputs, htodo, hpending, List.filter_append, ← List.append_assoc]
    rfl
  have hnone : (cbs.filter Functor.isOutput).filterMap Functor.call = [] := by
    apply List.filterMap_eq_nil_iff.mpr
    exact fun cb hcb => hcbs cb (List.mem_of_mem_filter hcb)
  refine ⟨hcells, hsends, hhandled, hstream, ?_, ?_, by rw [htodo], ?_, by rw [htodo]; exact id⟩
  · rw [houtputs, List.filterMap_append, hnone, List.append_nil]
  · intro f hf
    rw [houtputs, List.mem_append] at hf
    rcases hf with hf | hf
    · exact .inl hf
    · exact .inr (hcbs f (List.mem_of_mem_filter hf))
  · rw [htodo]
    exact fun t ht => .inl ht

/-- When a task is done and makes room for at most the rest of a function, what waits behind it
stays. -/
theorem outputs_of_todo {s' : ConnectionSystem n} {rest : List Task}
    (hqueues : s.conn.Queues s'.conn)
    (htodo' : s'.todo = rest ∨ ∃ t, t.output = none ∧ s'.todo = t :: rest) :
    s'.outputs =
      rest.filterMap Task.output ++ s.conn.loop_.pendingFuntors_.filter Functor.isOutput := by
  rw [outputs, hqueues.filter_isOutput]
  rcases htodo' with heq | ⟨t, ht, heq⟩
  · rw [heq]
  · rw [heq, List.filterMap_cons_none ht]

/-- A task is done that is no `sendInLoop`, and makes room for at most the rest of a
function. -/
theorem silent_of_todo {s' : ConnectionSystem n} {task : Task} {rest : List Task}
    (htodo : s.todo = task :: rest) (htask : ∀ f, task.output = some f → f.call = none)
    (hcells : s'.cells = s.cells) (hsends : s'.queuedSends = s.queuedSends)
    (hhandled : s'.handled = s.handled) (hstream : s'.conn.stream = s.conn.stream)
    (hqueues : s.conn.Queues s'.conn)
    (htodo' : s'.todo = rest ∨ ∃ t, t.output = none ∧ s'.todo = t :: rest) : Silent s s' := by
  have htaken : task.taken = [] := Task.taken_eq_nil (Task.isBufferRest_eq_false htask)
  have hnew {t : Task} (ht : t.output = none) : t.isBufferRest = false :=
    Task.isBufferRest_eq_false (Task.call_of_output ht)
  have houtputs := outputs_of_todo hqueues htodo'
  constructor
  · exact hcells
  · exact hsends
  · exact hhandled
  · exact hstream
  · rw [houtputs, outputs, htodo]
    cases hf : task.output with
    | none => rw [List.filterMap_cons_none hf]
    | some f =>
        rw [List.filterMap_cons_some hf, List.cons_append, List.filterMap_cons_none (htask f hf)]
  · rw [houtputs, outputs, htodo]
    intro f hf
    left
    cases htask' : task.output with
    | none => rwa [List.filterMap_cons_none htask']
    | some g =>
        rw [List.filterMap_cons_some htask']
        exact List.mem_cons_of_mem g hf
  · rw [htodo, List.flatMap_cons, htaken]
    rcases htodo' with heq | ⟨t, ht, heq⟩
    · rw [heq, List.nil_append]
    · rw [heq, List.flatMap_cons, Task.taken_eq_nil (hnew ht)]
  · rw [htodo]
    intro t ht
    rcases htodo' with heq | ⟨t', ht', heq⟩
    · exact .inl (List.mem_cons_of_mem _ (heq ▸ ht))
    · rw [heq] at ht
      rcases List.mem_cons.mp ht with rfl | ht
      · exact .inr (hnew ht')
      · exact .inl (List.mem_cons_of_mem _ ht)
  · rw [htodo, List.tail_cons]
    intro hrest
    rcases htodo' with heq | ⟨t', ht', heq⟩
    · rw [heq]
      exact fun t ht => hrest t (List.mem_of_mem_tail ht)
    · rw [heq]
      exact hrest

/-- The loop's thread, which has nothing to do, begins with new tasks. -/
theorem silent_of_fresh {s' : ConnectionSystem n} (htodo : s.todo = [])
    (hcells : s'.cells = s.cells) (hsends : s'.queuedSends = s.queuedSends)
    (hhandled : s'.handled = s.handled) (hstream : s'.conn.stream = s.conn.stream)
    (houtputs : s'.outputs = s.outputs) (htodo' : ∀ t ∈ s'.todo, t.isBufferRest = false) :
    Silent s s' := by
  refine ⟨hcells, hsends, hhandled, hstream, by rw [houtputs], ?_, ?_, ?_, ?_⟩
  · rw [houtputs]
    exact fun f hf => .inl hf
  · rw [htodo, List.flatMap_nil, List.flatMap_eq_nil_iff]
    exact fun t ht => Task.taken_eq_nil (htodo' t ht)
  · exact fun t ht => .inr (htodo' t ht)
  · exact fun _ t ht => Task.taken_eq_nil (htodo' t (List.mem_of_mem_tail ht))

/-- The user's code calls `send` or `shutdown` in the loop's thread. -/
theorem silent_of_userCode {s' : ConnectionSystem n} {t : Task} (ht : t.output = none)
    (huser : userCode s.todo = true)
    (hcells : s'.cells = s.cells) (hsends : s'.queuedSends = s.queuedSends)
    (hhandled : s'.handled = s.handled) (hconn : s'.conn = s.conn)
    (htodo : s'.todo = t :: s.todo) : Silent s s' := by
  have hnew : t.isBufferRest = false := Task.isBufferRest_eq_false (Task.call_of_output ht)
  have houtputs : s'.outputs = s.outputs := by
    rw [outputs, htodo, hconn, List.filterMap_cons_none ht]
    rfl
  refine ⟨hcells, hsends, hhandled, by rw [hconn], by rw [houtputs], ?_, ?_, ?_, ?_⟩
  · rw [houtputs]
    exact fun f hf => .inl hf
  · rw [htodo, List.flatMap_cons, Task.taken_eq_nil hnew, List.nil_append]
  · rw [htodo]
    intro t' ht'
    rcases List.mem_cons.mp ht' with rfl | ht'
    · exact .inr hnew
    · exact .inl ht'
  · rw [htodo, List.tail_cons]
    intro htail t' ht'
    cases hs : s.todo with
    | nil => simp [hs] at ht'
    | cons task rest =>
        rw [hs] at ht' huser htail
        rcases List.mem_cons.mp ht' with rfl | ht'
        · apply Task.taken_eq_nil
          cases t' <;> first | rfl | cases huser
        · exact htail t' ht'

/-! ## The steps of a `sendInLoop` -/

theorem Carried.call_lt (h : Carried s) {data len call : ℕ}
    (hmem : .sendInLoop data len call ∈ s.outputs) : call < s.queuedSends.length := by
  rw [← List.mem_range, ← h.order, List.mem_append]
  right
  exact List.mem_filterMap.mpr ⟨_, hmem, rfl⟩

theorem Carried.getD_call (h : Carried s) {data len call : ℕ}
    (hmem : .sendInLoop data len call ∈ s.outputs) (more : List (List UInt8)) :
    (s.queuedSends ++ more).getD call [] = s.queuedSends.getD call [] := by
  rw [List.getD_eq_getElem?_getD, List.getD_eq_getElem?_getD,
    List.getElem?_append_left (h.call_lt hmem)]

/-- A call of `send` gets the next number. -/
theorem Carried.queueSend (h : Carried s) {thread : Fin n} {cell : ℕ}
    (hthread : s.threads thread = .queueSend cell) : Carried (s.next (.queueSend thread)) := by
  rw [next_queueSend hthread]
  have houtputs : outputs
      { s.queueInLoop (.sendInLoop cell ((s.cells cell).getD []).length s.queuedSends.length) with
        threads := Function.update s.threads thread .idle
        queuedSends := s.queuedSends ++ [(s.cells cell).getD []] } =
      s.outputs ++
        [.sendInLoop cell ((s.cells cell).getD []).length s.queuedSends.length] := by
    simp [outputs, queueInLoop, TcpConnection.queueInLoop, EventLoop.queueInLoop,
      Functor.isOutput]
  constructor
  · constructor
    · rw [houtputs, List.filterMap_append, ← List.append_assoc]
      simp only [queueInLoop]
      rw [h.order, List.length_append, List.length_singleton, List.range_succ]
      rfl
    · intro e he k hk
      have hdata := h.data e he k hk
      obtain ⟨hlt, -⟩ := List.getElem?_eq_some_iff.mp hdata
      simp only
      rw [List.getElem?_append_left hlt, hdata]
    · exact h.emitted
    · exact h.stream
  · rw [houtputs]
    intro f hf
    rcases List.mem_append.mp hf with hf | hf
    · have hfinds := h.finds f hf
      cases f with
      | sendInLoop data len call =>
          simp only [queueInLoop, Functor.Finds, h.getD_call hf] at hfinds ⊢
          exact hfinds
      | _ => trivial
    · obtain rfl := List.mem_singleton.mp hf
      simp [Functor.Finds, queueInLoop]
  · intro taken data len call fault hmem
    have hmem' : .sendInLoop data len call ∈ s.outputs := by
      apply List.mem_append_left
      exact List.mem_filterMap.mpr ⟨_, hmem, rfl⟩
    simp only [h.getD_call hmem']
    exact h.rest taken data len call fault hmem
  · exact h.tail

theorem Carried.assign (h : Carried s) {cell : ℕ} {value : Option (List UInt8)}
    (hok : s.KeepsStrings (.assign cell value)) : Carried (s.next (.assign cell value)) :=
  ⟨⟨h.order, h.data, h.emitted, h.stream⟩, hok, h.rest, h.tail⟩

/-- A `sendInLoop` in the thread of the loop, from its beginning to its end. -/
theorem stream_sendInLoop_emitted (c : TcpConnection) (data : List UInt8) (r : Except Errno ℕ) :
    ((c.writeDirect data r).1.bufferRest (data.drop (c.writeDirect data r).2.1)
      (c.writeDirect data r).2.2).stream =
      c.stream ++ if (c.writeDirect data r).2.2 then [] else data := by
  cases hfault : (c.writeDirect data r).2.2 with
  | true =>
      rw [TcpConnection.bufferRest_of_fault, TcpConnection.stream_writeDirect_take,
        TcpConnection.writeDirect_nwrote _ _ _ hfault]
      rfl
  | false => rw [TcpConnection.stream_bufferRest, TcpConnection.stream_writeDirect]; rfl

theorem emitted_writeDirect (c : TcpConnection) (data : List UInt8) (r : Except Errno ℕ) :
    (data.take (c.writeDirect data r).2.1 ++
      if (c.writeDirect data r).2.2 then [] else data.drop (c.writeDirect data r).2.1) =
      if (c.writeDirect data r).2.2 then [] else data := by
  cases hfault : (c.writeDirect data r).2.2 with
  | true =>
      rw [TcpConnection.writeDirect_nwrote _ _ _ hfault]
      rfl
  | false => exact List.take_append_drop _ _

/-- `send` in the loop's thread. -/
theorem Carried.loopSend (h : Carried s) (o : Outside) {data : List UInt8} {rest : List Task}
    (htodo : s.todo = .sendInLoop data :: rest) :
    Carried (s.runTask o rest (.sendInLoop data)) := by
  have hrest : ∀ t ∈ rest, t.taken = [] := by simpa [htodo] using h.tail
  have hnil : rest.flatMap Task.taken = [] := List.flatMap_eq_nil_iff.mpr hrest
  have houtputs : (s.runTask o rest (.sendInLoop data)).outputs = s.outputs := by
    rw [outputs, outputs, htodo, List.filterMap_cons_none rfl]
    simp only [runTask]
    rw [((TcpConnection.queues_writeDirect _ _ _).trans
      (TcpConnection.queues_bufferRest _ _ _)).filter_isOutput]
  constructor
  · constructor
    · rw [houtputs]
      simp only [runTask]
      rw [List.filterMap_append, ← h.order]
      simp
    · intro e he k hk
      rcases List.mem_append.mp he with he | he
      · exact h.data e he k hk
      · obtain rfl := List.mem_singleton.mp he
        cases hk
    · intro e he
      rcases List.mem_append.mp he with he | he
      · exact h.emitted e he
      · obtain rfl := List.mem_singleton.mp he
        exact emitted_writeDirect s.conn data o.written
    · have hstream := h.stream
      rw [htodo, List.flatMap_cons, hnil] at hstream
      simp only [runTask]
      rw [stream_sendInLoop_emitted, hstream, hnil, List.flatMap_append, List.flatMap_singleton,
        emitted_writeDirect]
      simp [Task.taken]
  · rw [houtputs]
    exact h.finds
  · intro taken data' len call fault hmem
    exact h.rest taken data' len call fault (htodo ▸ List.mem_cons_of_mem _ hmem)
  · exact fun t ht => hrest t (List.mem_of_mem_tail ht)

/-- A `sendInLoop` out of the queue writes first. -/
theorem Carried.writeDirect (h : Carried s) (o : Outside) {data len call : ℕ} {rest : List Task}
    (htodo : s.todo = .functor (.sendInLoop data len call) :: rest) :
    Carried (s.runFunctor o rest (.sendInLoop data len call)) := by
  have hrest : ∀ t ∈ rest, t.taken = [] := by simpa [htodo] using h.tail
  have hnil : rest.flatMap Task.taken = [] := List.flatMap_eq_nil_iff.mpr hrest
  have houtputs : (s.runFunctor o rest (.sendInLoop data len call)).outputs = s.outputs := by
    rw [outputs, outputs, htodo]
    simp only [runFunctor]
    rw [(TcpConnection.queues_writeDirect _ _ _).filter_isOutput]
    rfl
  have hbytes : s.readString data len o.garbage = s.queuedSends.getD call [] := by
    apply readString_of_finds
    apply h.finds
    rw [outputs, htodo]
    exact List.mem_cons_self
  have htodo' : (s.runFunctor o rest (.sendInLoop data len call)).todo =
      .bufferRest ((s.readString data len o.garbage).take
          (s.conn.writeDirect (s.readString data len o.garbage) o.written).2.1) data len call
        (s.conn.writeDirect (s.readString data len o.garbage) o.written).2.2 :: rest := rfl
  rw [hbytes] at htodo'
  constructor
  · constructor
    · rw [houtputs]
      exact h.order
    · exact h.data
    · exact h.emitted
    · have hstream := h.stream
      rw [htodo, List.flatMap_cons, hnil] at hstream
      simp only [runFunctor]
      rw [TcpConnection.stream_writeDirect_take, hstream, List.flatMap_cons, hnil]
      simp [Task.taken]
  · rw [houtputs]
    exact h.finds
  · intro taken data' len' call' fault hmem
    rw [htodo', List.mem_cons] at hmem
    rcases hmem with heq | hmem
    · rw [Task.bufferRest.injEq] at heq
      obtain ⟨rfl, rfl, rfl, rfl, rfl⟩ := heq
      refine ⟨List.take_prefix _ _, fun hfault => ?_⟩
      rw [TcpConnection.writeDirect_nwrote _ _ _ hfault, List.take_zero]
    · exact h.rest taken data' len' call' fault (htodo ▸ List.mem_cons_of_mem _ hmem)
  · exact hrest

/-- Then it buffers what is left, and ends. -/
theorem Carried.bufferRest (h : Carried s) (o : Outside) {taken : List UInt8}
    {data len call : ℕ} {fault : Bool} {rest : List Task}
    (htodo : s.todo = .bufferRest taken data len call fault :: rest) :
    Carried (s.runTask o rest (.bufferRest taken data len call fault)) := by
  have hrest : ∀ t ∈ rest, t.taken = [] := by simpa [htodo] using h.tail
  have hnil : rest.flatMap Task.taken = [] := List.flatMap_eq_nil_iff.mpr hrest
  have hcons : s.outputs = .sendInLoop data len call ::
      (s.runTask o rest (.bufferRest taken data len call fault)).outputs := by
    rw [outputs, outputs, htodo]
    simp only [runTask]
    rw [(TcpConnection.queues_bufferRest _ _ _).filter_isOutput]
    rfl
  have hmem : .sendInLoop data len call ∈ s.outputs := hcons ▸ List.mem_cons_self
  have hbytes : s.readString data len o.garbage = s.queuedSends.getD call [] :=
    readString_of_finds (h.finds _ hmem) _
  obtain ⟨hpre, hfault⟩ := h.rest taken data len call fault (htodo ▸ List.mem_cons_self)
  have hwhole : (taken ++ if fault then [] else
      (s.queuedSends.getD call []).drop taken.length) =
      if fault then [] else s.queuedSends.getD call [] := by
    cases fault with
    | true => simp [hfault]
    | false => exact List.prefix_iff_eq_append.mp hpre
  constructor
  · constructor
    · have horder := h.order
      rw [hcons, List.filterMap_cons_some (rfl : Functor.call _ = some call)] at horder
      have hhandled : (s.runTask o rest (.bufferRest taken data len call fault)).handled.filterMap
          Handled.call = s.handled.filterMap Handled.call ++ [call] := by
        simp [runTask]
      rw [hhandled, List.append_assoc]
      exact horder
    · intro e he k hk
      rcases List.mem_append.mp he with he | he
      · exact h.data e he k hk
      · obtain rfl := List.mem_singleton.mp he
        cases hk
        simp only [runTask]
        rw [List.getD_eq_getElem?_getD, List.getElem?_eq_getElem (h.call_lt hmem),
          Option.getD_some]
    · intro e he
      rcases List.mem_append.mp he with he | he
      · exact h.emitted e he
      · obtain rfl := List.mem_singleton.mp he
        simp only
        rw [hbytes]
        exact hwhole
    · have hstream := h.stream
      rw [htodo, List.flatMap_cons, hnil, List.append_nil] at hstream
      simp only [runTask]
      rw [hnil, List.append_nil, List.flatMap_append, List.flatMap_singleton, hbytes, hwhole]
      cases fault with
      | true =>
          rw [TcpConnection.bufferRest_of_fault, hstream, Task.taken, hfault rfl]
          rfl
      | false =>
          rw [TcpConnection.stream_bufferRest, hstream, List.append_assoc]
          exact congrArg _ hwhole
  · intro f hf
    exact h.finds f (hcons ▸ List.mem_cons_of_mem _ hf)
  · intro taken' data' len' call' fault' hmem'
    exact h.rest taken' data' len' call' fault' (htodo ▸ List.mem_cons_of_mem _ hmem')
  · exact fun t ht => hrest t (List.mem_of_mem_tail ht)

/-! ## Every step -/

theorem Carried.runFunctor (h : Carried s) (o : Outside) {rest : List Task} {f : Functor}
    (hbegun : Begun s) (htodo : s.todo = .functor f :: rest) : Carried (s.runFunctor o rest f) := by
  cases f with
  | connectEstablished => exact absurd (htodo ▸ List.mem_cons_self) hbegun.todo
  | connectDestroyed =>
      refine h.of_silent (silent_of_todo htodo (Task.call_of_output rfl) rfl rfl rfl rfl (.refl _)
        (.inr ⟨_, ?_, rfl⟩))
      split <;> rfl
  | sendInLoop data len call => exact h.writeDirect o htodo
  | shutdownInLoop =>
      refine h.of_silent (silent_of_todo htodo ?_ rfl rfl rfl ?_ ?_ (.inl rfl))
      · rintro f hf
        cases hf
        rfl
      · exact TcpConnection.stream_shutdownInLoop _
      · exact TcpConnection.queues_shutdownInLoop _
  | writeCompleteCallback_ =>
      exact h.of_silent (silent_of_todo htodo (Task.call_of_output rfl) rfl rfl rfl rfl (.refl _)
        (.inl rfl))
  | highWaterMarkCallback_ bytes =>
      exact h.of_silent (silent_of_todo htodo (Task.call_of_output rfl) rfl rfl rfl rfl (.refl _)
        (.inl rfl))

theorem Carried.removeConnection (h : Carried s) : Carried s.removeConnection := by
  obtain ⟨cbs, inConnections, baseQueue, hcbs, heq⟩ := s.removeConnection_eq
  rw [heq]
  refine h.of_silent (silent_of_todo_eq rfl rfl rfl rfl rfl cbs (fun cb hcb => ?_) rfl)
  rw [hcbs cb hcb]
  rfl

theorem Carried.runTask (h : Carried s) (o : Outside) {task : Task} {rest : List Task}
    (hbegun : Begun s) (htodo : s.todo = task :: rest) : Carried (s.runTask o rest task) := by
  cases task with
  | handleClose =>
      exact h.of_silent (silent_of_todo htodo (Task.call_of_output rfl) rfl rfl rfl rfl
        (TcpConnection.queues_setDisconnected _) (.inr ⟨.closeCallback, rfl, rfl⟩))
  | handleError =>
      exact h.of_silent (silent_of_todo htodo (Task.call_of_output rfl) rfl rfl rfl rfl (.refl _)
        (.inl rfl))
  | handleRead =>
      refine h.of_silent (silent_of_todo htodo (Task.call_of_output rfl) rfl rfl rfl ?_ ?_ ?_)
      · simp [ConnectionSystem.runTask, TcpConnection.stream]
      · exact TcpConnection.queues_readInput _ _
      · simp only [ConnectionSystem.runTask]
        split
        · exact .inr ⟨_, rfl, rfl⟩
        · exact .inl rfl
  | handleWrite =>
      refine h.of_silent (silent_of_todo htodo (Task.call_of_output rfl) rfl rfl rfl ?_ ?_ ?_)
      · exact TcpConnection.stream_writeOutput _ _
      · exact TcpConnection.queues_writeOutput _ _
      · simp only [ConnectionSystem.runTask]
        split
        · exact .inr ⟨_, rfl, rfl⟩
        · exact .inl rfl
  | functor f => exact h.runFunctor o hbegun htodo
  | drained =>
      refine h.of_silent (silent_of_todo htodo (Task.call_of_output rfl) rfl rfl rfl ?_ ?_
        (.inl rfl))
      · simp only [ConnectionSystem.runTask]
        split
        · exact TcpConnection.stream_shutdownInLoop _
        · rfl
      · simp only [ConnectionSystem.runTask]
        split
        · exact TcpConnection.queues_shutdownInLoop _
        · exact .refl _
  | closeCallback =>
      have hinvoked : Carried { s with conn := s.conn.invoke .closeCallback_, todo := rest } :=
        h.of_silent (silent_of_todo htodo (Task.call_of_output rfl) rfl rfl rfl rfl (.of_eq rfl)
          (.inl rfl))
      exact hinvoked.removeConnection
  | sendInLoop data => exact h.loopSend o htodo
  | storeDisconnecting =>
      refine h.of_silent (silent_of_todo htodo (Task.call_of_output rfl) rfl rfl rfl ?_ ?_
        (.inl rfl))
      · exact TcpConnection.stream_shutdownInLoop _
      · exact TcpConnection.queues_shutdownInLoop (s.conn.setState .kDisconnecting)
  | bufferRest taken data len call fault => exact h.bufferRest o htodo
  | storeDisconnected =>
      exact h.of_silent (silent_of_todo htodo (Task.call_of_output rfl) rfl rfl rfl rfl
        (TcpConnection.queues_setDisconnected _) (.inr ⟨.remove, rfl, rfl⟩))
  | remove =>
      exact h.of_silent (silent_of_todo htodo (Task.call_of_output rfl) rfl rfl rfl rfl (.of_eq rfl)
        (.inl rfl))

theorem isBufferRest_poll (s : ConnectionSystem n) (revents : Events) :
    ∀ t ∈ (s.next (.poll revents)).todo, t.isBufferRest = false := by
  intro t ht
  obtain ⟨event, -, rfl⟩ := List.mem_map.mp ht
  cases event <;> rfl

/-- Events bring no functors. -/
theorem outputs_poll (h : s.todo = []) (revents : Events) :
    (s.next (.poll revents)).outputs = s.outputs := by
  have hevents : (s.next (.poll revents)).todo.filterMap Task.output = [] := by
    rw [List.filterMap_eq_nil_iff]
    intro t ht
    obtain ⟨event, -, rfl⟩ := List.mem_map.mp ht
    cases event <;> rfl
  rw [outputs, hevents, outputs, h]
  rfl

theorem isBufferRest_doPendingFunctors (s : ConnectionSystem n) :
    ∀ t ∈ (s.next .doPendingFunctors).todo, t.isBufferRest = false := by
  intro t ht
  obtain ⟨f, -, rfl⟩ := List.mem_map.mp ht
  rfl

/-- The queue is taken as it is. -/
theorem outputs_doPendingFunctors (h : s.todo = []) :
    (s.next .doPendingFunctors).outputs = s.outputs := by
  simp only [outputs, next, h, filterMap_output_functors]
  simp

theorem Carried.next (h : Carried s) (hbegun : Begun s) {a : Action n} (hen : s.Enabled a)
    (hok : s.KeepsStrings a) : Carried (s.next a) := by
  have hnil : s.conn.loop_.pendingFuntors_ = s.conn.loop_.pendingFuntors_ ++ [] := by simp
  have hnone : ∀ cb ∈ ([] : List Functor), cb.call = none := List.forall_mem_nil _
  cases a with
  | callSend thread cell =>
      simp only [ConnectionSystem.next]
      split
      · exact h.of_silent (silent_of_todo_eq rfl rfl rfl rfl rfl [] hnone hnil)
      · exact h
  | queueSend thread =>
      obtain ⟨cell, hthread⟩ := exists_of_isQueueSend hen
      exact h.queueSend hthread
  | callShutdown thread =>
      simp only [ConnectionSystem.next]
      split
      · exact h.of_silent (silent_of_todo_eq rfl rfl rfl rfl rfl [] hnone hnil)
      · exact h
  | storeDisconnecting thread =>
      exact h.of_silent (silent_of_todo_eq rfl rfl rfl rfl rfl [] hnone hnil)
  | queueShutdown thread =>
      refine h.of_silent (silent_of_todo_eq rfl rfl rfl rfl rfl [.shutdownInLoop] ?_ rfl)
      simp [Functor.call]
  | assign cell value => exact h.assign hok
  | poll revents =>
      exact h.of_silent (silent_of_fresh hen.1 rfl rfl rfl rfl (outputs_poll hen.1 revents)
        (isBufferRest_poll s revents))
  | doPendingFunctors =>
      exact h.of_silent (silent_of_fresh hen rfl rfl rfl rfl (outputs_doPendingFunctors hen)
        (isBufferRest_doPendingFunctors s))
  | loopSend data =>
      simp only [ConnectionSystem.next]
      split
      · exact h.of_silent
          (silent_of_userCode (t := .sendInLoop data) rfl hen.2 rfl rfl rfl rfl rfl)
      · exact h
  | loopShutdown =>
      simp only [ConnectionSystem.next]
      split
      · exact h.of_silent
          (silent_of_userCode (t := .storeDisconnecting) rfl hen.2 rfl rfl rfl rfl rfl)
      · exact h
  | execute o =>
      obtain ⟨task, rest, htodo⟩ := List.exists_cons_of_ne_nil hen.1
      rw [next_execute htodo]
      exact h.runTask o hbegun htodo
  | removeConnectionInLoop =>
      refine h.of_silent (silent_of_todo_eq rfl rfl rfl rfl rfl [.connectDestroyed] ?_ rfl)
      simp [Functor.call]
  | destroyServer =>
      simp only [ConnectionSystem.next]
      split
      · split
        · next hsame =>
            refine h.of_silent (silent_of_fresh (hen.2 hsame) rfl rfl rfl rfl ?_ ?_)
            · simp [outputs, hen.2 hsame, Task.output, Functor.isOutput]
            · simp [Task.isBufferRest]
        · refine h.of_silent (silent_of_todo_eq rfl rfl rfl rfl rfl [.connectDestroyed] ?_ rfl)
          simp [Functor.call]
      · exact h.of_silent (silent_of_todo_eq rfl rfl rfl rfl rfl [] hnone hnil)

theorem Waiting.output_eq_none (h : Waiting s) {t : Task}
    (ht : t ∈ s.todo ++ s.conn.loop_.pendingFuntors_.map .functor) : t.output = none := by
  obtain ⟨later, hqueue, hlater⟩ := h.queue
  rw [hqueue, List.mem_cons] at ht
  rcases ht with rfl | ht
  · rfl
  · rw [hlater t ht]
    rfl

theorem Waiting.outputs_eq_nil (h : Waiting s) : s.outputs = [] := by
  rw [outputs, ← filterMap_output_functors, ← List.filterMap_append, List.filterMap_eq_nil_iff]
  exact fun t ht => h.output_eq_none ht

theorem Waiting.carried (h : Waiting s) : Carried s := by
  have houtputs := h.outputs_eq_nil
  have htodo : ∀ t ∈ s.todo, t.isBufferRest = false := by
    intro t ht
    apply Task.isBufferRest_eq_false
    exact Task.call_of_output (h.output_eq_none (List.mem_append_left _ ht))
  have hstream : s.conn.stream = [] := by
    obtain ⟨address, fd, cbs, pending, hconn⟩ := h.conn
    rw [hconn]
    rfl
  have htaken : s.todo.flatMap Task.taken = [] :=
    List.flatMap_eq_nil_iff.mpr fun t ht => Task.taken_eq_nil (htodo t ht)
  constructor
  · constructor
    · rw [h.handled, houtputs, h.queuedSends]
      rfl
    · rw [h.handled]
      exact List.forall_mem_nil _
    · rw [h.handled]
      exact List.forall_mem_nil _
    · rw [hstream, h.handled, htaken]
      rfl
  · rw [houtputs]
    exact List.forall_mem_nil _
  · intro taken data len call fault hmem
    cases htodo _ hmem
  · exact fun t ht => Task.taken_eq_nil (htodo t (List.mem_of_mem_tail ht))

theorem Carried.begin (h : Carried s) {rest : List Task}
    (htodo : s.todo = .functor .connectEstablished :: rest) : Carried (s.begin rest) :=
  h.of_silent (silent_of_todo htodo (Task.call_of_output rfl) rfl rfl rfl rfl
    (TcpConnection.queues_connectEstablished _) (.inl rfl))

/-! ## Every run -/

/-- In a run in which strings are changed only behind the `sendInLoop` they wait for, each call
of `send` takes its data at the call. -/
theorem takesData_of_keepsStrings {address fd : ℕ} {cbs : Callbacks}
    {cells : ℕ → Option (List UInt8)} {sameLoop : Bool} {as : List (Action n)}
    (hruns : (connectionSystem n).Runs (newConnection n address fd cbs cells sameLoop) as)
    (hok : (connectionSystem n).Always KeepsStrings
      (newConnection n address fd cbs cells sameLoop) as) :
    TakesData ((connectionSystem n).run (newConnection n address fd cbs cells sameLoop) as) := by
  rcases invariant_of_begun (J := Carried) (p := KeepsStrings)
    (fun s rest hs htodo => hs.carried.begin htodo)
    (fun s a hs hJ hen hperm => hJ.next hs hen hperm) hruns hok with hwaiting | ⟨-, hcarried⟩
  · exact hwaiting.carried.toTakesData
  · exact hcarried.toTakesData

/-- A thread sends its string and overwrites it when the loop has run its queue. -/
def overwrittenLater : List (Action 1) :=
  [.doPendingFunctors, .execute {}, .callSend oneThread 0, .queueSend oneThread, .doPendingFunctors,
    .execute { written := .ok 1 }, .execute {}, .assign 0 (some [67, 68])]

def twoBytes : ℕ → Option (List UInt8) := fun _ => some [65, 66]

theorem takesData_overwrittenLater :
    TakesData ((connectionSystem 1).run (newConnection 1 0 5 {} twoBytes false) overwrittenLater) :=
  takesData_of_keepsStrings (by decide +kernel) (by decide +kernel)

/-- The thread overwrites the string as soon as `send` has returned. -/
def overwrittenAtOnce : List (Action 1) :=
  [.doPendingFunctors, .execute {}, .callSend oneThread 0, .queueSend oneThread,
    .assign 0 (some [67, 68]), .doPendingFunctors, .execute { written := .ok 1 }, .execute {}]

theorem not_takesData_overwrittenAtOnce :
    (connectionSystem 1).Runs (newConnection 1 0 5 {} twoBytes false) overwrittenAtOnce ∧
      ¬ TakesData ((connectionSystem 1).run (newConnection 1 0 5 {} twoBytes false)
        overwrittenAtOnce) := by
  refine ⟨by decide +kernel, fun h => ?_⟩
  have hemitted := h.emitted
  revert hemitted
  decide +kernel

end ConnectionSystem

end CkServer
