import CkServer.Verification.Http.Connection
import CkServer.Verification.Http.RoundTrip
import CkServer.Verification.Tcp.Ending

/-! # A dialogue on one connection

A client writes its requests one after another, and its peer takes them in whatever pieces. What
the server's user is asked is what the client has written, and what the client gets are the
responses, up to the first that closes. -/

namespace CkServer

open Text HttpContext

/-- A client reads the parts of a response that closes. -/
theorem HttpResponse.read?_serialised {resp : HttpResponse} (h : resp.WellFormed)
    (hclose : resp.closeConnection_ = true) :
    read? resp.serialised =
      some ⟨resp.statusCode_, resp.statusMessage_, resp.expectedFields, resp.body_⟩ := by
  have hfields : resp.writtenFields = resp.expectedFields := by
    simp [writtenFields, expectedFields, hclose]
  rw [serialised_eq, ← hfields]
  exact read?_message h fun field hfield => valid_of_mem_writtenFields h hfield

namespace HttpConnection

/-- A connection whose peer has stayed: what it has accepted has been written or waits, and it shuts
its output down when nothing waits any more. -/
structure Flowing (h : HttpConnection) : Prop where
  output : ∃ asked, OutputInvariant ⟨h.conn, h.accepted.flatten, asked⟩
  stays : h.conn.state_ = .kConnected ∨ h.conn.state_ = .kDisconnecting
  ended : h.conn.Ended

theorem flowing_new (address fd : ℕ) : (new address fd).Flowing where
  output := ⟨false, OutputInvariant.established address fd {}⟩
  stays := .inl rfl
  ended := by
    intro hstate
    cases hstate

/-- The input is no part of it. -/
theorem Flowing.of_conn {h h' : HttpConnection} (hf : h.Flowing)
    (haccepted : h'.accepted = h.accepted) (hstate : h'.conn.state_ = h.conn.state_)
    (hsocket : h'.conn.socket_ = h.conn.socket_) (hchannel : h'.conn.channel_ = h.conn.channel_)
    (hout : h'.conn.outputBuffer_ = h.conn.outputBuffer_) : h'.Flowing := by
  obtain ⟨⟨asked, hinv⟩, hstays, hended⟩ := hf
  refine ⟨⟨asked, ?_⟩, hstate ▸ hstays, hended.of_eq hstate hchannel hsocket⟩
  rw [haccepted]
  exact hinv.of_conn hstate hsocket hchannel hout

theorem Flowing.perform {h : HttpConnection} (hf : h.Flowing) {o : ReadEvent}
    (hwritten : ∀ msg, Writable msg.length (o.written msg)) (call : ServerCall) :
    (h.perform o call).Flowing := by
  obtain ⟨⟨asked, hinv⟩, hstays, hended⟩ := hf
  cases call with
  | httpCallback req => exact ⟨⟨asked, hinv⟩, hstays, hended⟩
  | send msg =>
      refine ⟨⟨asked, ?_⟩, ?_, hended.send msg _⟩
      · have hnext := hinv.send (hwritten msg)
        simp only [LoopState.next] at hnext
        by_cases hconn : h.conn.state_ = .kConnected
        · simpa [HttpConnection.perform, TcpConnection.connected, hconn] using hnext
        · simpa [HttpConnection.perform, TcpConnection.connected, hconn] using hnext
      · simp only [HttpConnection.perform, TcpConnection.send]
        split
        · rwa [TcpConnection.sendInLoop_state_]
        · exact hstays
  | shutdown =>
      refine ⟨⟨true, hinv.shutdown⟩, ?_, hended.shutdown⟩
      simp only [HttpConnection.perform, TcpConnection.shutdown]
      split
      · exact .inr (TcpConnection.shutdownInLoop_state_ _)
      · exact hstays

theorem Flowing.foldl_perform {o : ReadEvent}
    (hwritten : ∀ msg, Writable msg.length (o.written msg)) (calls : List ServerCall)
    {h : HttpConnection} (hf : h.Flowing) : (calls.foldl (HttpConnection.perform o) h).Flowing := by
  induction calls generalizing h with
  | nil => exact hf
  | cons call calls ih => exact ih (hf.perform hwritten call)

theorem Flowing.handleWrite {h : HttpConnection} (hf : h.Flowing) (r : Except Errno ℕ) :
    ({ h with conn := h.conn.handleWrite r } : HttpConnection).Flowing := by
  obtain ⟨⟨asked, hinv⟩, hstays, hended⟩ := hf
  refine ⟨⟨asked, hinv.handleWrite r⟩, ?_, hended.handleWrite r⟩
  rwa [TcpConnection.handleWrite_state_]

end HttpConnection

/-! ## Reading -/

/-- The bytes that an event brings. -/
def HttpEvent.received : HttpEvent → List UInt8
  | .handleRead o => o.received.toOption.getD []
  | _ => []

/-- The events of a connection whose peer stays: neither the end of its input nor an error that
says that it is gone. -/
def HttpEvent.PeerStays : HttpEvent → Prop
  | .handleRead o => o.received ≠ .ok [] ∧ ∀ msg, CkServer.Writable msg.length (o.written msg)
  | .handleWrite _ => True
  | .handleClose => False
  | .connectDestroyed => False

/-- What has come in by the given events. -/
def input (es : List HttpEvent) : List UInt8 := es.flatMap HttpEvent.received

@[simp] theorem input_cons (e : HttpEvent) (es : List HttpEvent) :
    input (e :: es) = e.received ++ input es := by simp [input]

namespace HttpConnection

/-- The connection has taken in `xs` since the last request, and goes on reading. -/
structure Awaits (h : HttpConnection) (xs : List UInt8) : Prop where
  reading : Reading h.context_
  so_far : parser.read {} xs = ⟨.starved, h.context_.eraseTime, h.conn.inputBuffer_.readable⟩

theorem awaits_new (address fd : ℕ) : (new address fd).Awaits [] where
  reading := .inl rfl
  so_far := parser.read_of_none (by decide)

theorem inputBuffer_foldl_perform (o : ReadEvent) (calls : List ServerCall) (h : HttpConnection) :
    (calls.foldl (perform o) h).conn.inputBuffer_ = h.conn.inputBuffer_ := by
  induction calls generalizing h with
  | nil => rfl
  | cons call calls ih =>
      rw [List.foldl_cons, ih]
      cases call with
      | httpCallback req => rfl
      | send msg => exact h.conn.send_inputBuffer_ msg _
      | shutdown => exact h.conn.shutdown_inputBuffer_

/-- An event without input changes neither the input nor the exchange. -/
theorem step_of_received_nil {h : HttpConnection} (hf : h.Flowing) {e : HttpEvent}
    (he : e.PeerStays) (hnil : e.received = []) :
    ∃ h', h.step e = some h' ∧ h'.Flowing ∧ h'.context_ = h.context_ ∧
      h'.conn.inputBuffer_ = h.conn.inputBuffer_ ∧ h'.exchange = h.exchange := by
  cases e with
  | handleClose => exact he.elim
  | connectDestroyed => exact he.elim
  | handleWrite r =>
      refine ⟨_, rfl, hf.handleWrite r, rfl, h.conn.handleWrite_inputBuffer_ r, ?_⟩
      simp [exchange, TcpConnection.connected]
  | handleRead o =>
      cases hread : o.received with
      | error e =>
          exact ⟨_, by simp only [step, handleRead, hread, Buffer.readFd_error],
            hf.of_conn rfl rfl rfl rfl rfl, rfl, rfl, rfl⟩
      | ok data =>
          have hdata : data = [] := by
            simpa [HttpEvent.received, hread, Except.toOption] using hnil
          exact absurd (hdata ▸ hread) he.1

/-- At an event with input the reader goes on with what waits. -/
theorem step_of_received {h : HttpConnection} (hf : h.Flowing) (hctx : Reading h.context_)
    {e : HttpEvent} (he : e.PeerStays) (hne : e.received ≠ [])
    {o : Resumable.Outcome HttpContext UInt8}
    (ho : parser.read h.context_.eraseTime (h.conn.inputBuffer_.readable ++ e.received) = o) :
    ∃ h' server req, h.step e = some h' ∧ h'.Flowing ∧ Reading h'.context_ ∧
      h'.conn.inputBuffer_.readable = o.rest ∧
      h'.context_.eraseTime = (if o.stop = .finished then {} else o.state) ∧
      (o.stop = .finished → req.eraseTime = o.state.request_) ∧
      h'.exchange = h.exchange.next (actAt server req o.stop) := by
  cases e with
  | handleClose => exact he.elim
  | connectDestroyed => exact he.elim
  | handleWrite r => exact absurd rfl hne
  | handleRead ev =>
      cases hread : ev.received with
      | error e => simp [HttpEvent.received, hread, Except.toOption] at hne
      | ok data =>
          have hdata : (HttpEvent.handleRead ev).received = data := by
            simp [HttpEvent.received, hread, Except.toOption]
          rw [hdata] at hne ho
          have hstep := h.handleRead_ok hread
          rw [if_pos (List.length_pos_iff.mpr hne)] at hstep
          have ho' : parser.read (h.withInput data).context_.eraseTime
              (h.withInput data).conn.inputBuffer_.readable = o := by
            rw [← ho, withInput, Buffer.readable_readFd_ok]
          obtain ⟨ctx', buf', req, hcalls, hctx', hrest, hcontext, hreq⟩ :=
            ev.server.onMessage_spec (show (h.withInput data).context_.Reading from hctx) _
              ev.receiveTime ho'
          refine ⟨_, ev.server, req, hstep.trans (by rw [onMessage, hcalls, Option.map_some]),
            ?_, ?_, ?_, ?_, hreq, ?_⟩
          · apply Flowing.foldl_perform he.2
            exact hf.of_conn rfl rfl rfl rfl rfl
          · rwa [context_foldl_perform]
          · rw [inputBuffer_foldl_perform]
            exact hrest
          · rw [context_foldl_perform]
            exact hcontext
          · rw [exchange_foldl_perform]
            rfl

/-- What waits and what comes are read as what has come in all. -/
theorem Awaits.read_more {h : HttpConnection} {xs : List UInt8} (haw : h.Awaits xs)
    (data : List UInt8) :
    parser.read h.context_.eraseTime (h.conn.inputBuffer_.readable ++ data) =
      parser.read {} (xs ++ data) := by
  rw [parser.read_more_of_starved {} xs data (by rw [haw.so_far]), haw.so_far]

/-- An event that leaves the reader waiting. -/
theorem Awaits.step {h : HttpConnection} {xs : List UInt8} (haw : h.Awaits xs) (hf : h.Flowing)
    {e : HttpEvent} (he : e.PeerStays)
    (hstop : (parser.read {} (xs ++ e.received)).stop = .starved) :
    ∃ h', h.step e = some h' ∧ h'.Flowing ∧ h'.Awaits (xs ++ e.received) ∧
      h'.exchange = h.exchange := by
  by_cases hnil : e.received = []
  · obtain ⟨h', hstep, hf', hcontext, hinput, hexchange⟩ := step_of_received_nil hf he hnil
    refine ⟨h', hstep, hf', ⟨hcontext ▸ haw.reading, ?_⟩, hexchange⟩
    rw [hnil, List.append_nil, haw.so_far, hcontext, hinput]
  · obtain ⟨h', server, req, hstep, hf', hctx, hrest, hcontext, -, hexchange⟩ :=
      step_of_received hf haw.reading he hnil (haw.read_more _)
    rw [hstop] at hexchange hcontext
    refine ⟨h', hstep, hf', ⟨hctx, ?_⟩, hexchange⟩
    rw [hrest, hcontext, if_neg (by decide), ← hstop]

/-- Within a request nothing is asked. -/
theorem foldlM_of_part {r : RequestText} {es : List HttpEvent} (hes : ∀ e ∈ es, e.PeerStays)
    {h : HttpConnection} {xs : List UInt8} (hf : h.Flowing) (haw : h.Awaits xs)
    (hpre : xs ++ input es <+: r.render) (hlt : (xs ++ input es).length < r.render.length) :
    ∃ h', es.foldlM step h = some h' ∧ h'.Flowing ∧ h'.Awaits (xs ++ input es) ∧
      h'.exchange = h.exchange := by
  induction es generalizing h xs with
  | nil => exact ⟨h, rfl, hf, by simpa [input] using haw, rfl⟩
  | cons e es ih =>
      rw [input_cons, ← List.append_assoc] at hpre hlt ⊢
      obtain ⟨h', hstep, hf', haw', hexchange⟩ := haw.step hf (hes e (by simp))
        (starved_of_lt ((List.prefix_append _ _).trans hpre) (Nat.lt_of_le_of_lt (by simp) hlt))
      obtain ⟨h'', hrun, hf'', haw'', hexchange'⟩ :=
        ih (fun e' he' => hes e' (by simp [he'])) hf' haw' hpre hlt
      exact ⟨h'', by rw [List.foldlM_cons, hstep]; exact hrun, hf'', haw'',
        hexchange'.trans hexchange⟩

/-- The last byte of a request gets it answered, and the events after it change nothing. -/
theorem foldlM_of_whole {r : RequestText} {es : List HttpEvent} (hes : ∀ e ∈ es, e.PeerStays)
    {h : HttpConnection} {xs : List UInt8} (hf : h.Flowing) (haw : h.Awaits xs)
    (hlt : xs.length < r.render.length) (hwhole : xs ++ input es = r.render) :
    ∃ h' server req, es.foldlM step h = some h' ∧ h'.Flowing ∧ h'.Awaits [] ∧
      req.eraseTime = r.request ∧ h'.exchange = h.exchange.next (.answer server req) := by
  induction es generalizing h xs with
  | nil =>
      simp only [input, List.flatMap_nil, List.append_nil] at hwhole
      exact absurd hlt (by simp [hwhole])
  | cons e es ih =>
      have he := hes e (by simp)
      have hes' : ∀ e' ∈ es, e'.PeerStays := fun e' he' => hes e' (by simp [he'])
      rw [input_cons, ← List.append_assoc] at hwhole
      have hpre : xs ++ e.received <+: r.render := hwhole ▸ List.prefix_append _ _
      rcases Nat.lt_or_ge (xs ++ e.received).length r.render.length with hless | hmore
      · obtain ⟨h', hstep, hf', haw', hexchange⟩ := haw.step hf he (starved_of_lt hpre hless)
        obtain ⟨h'', server, req, hrun, hrest⟩ := ih hes' hf' haw' hless hwhole
        exact ⟨h'', server, req, by rw [List.foldlM_cons, hstep]; exact hrun, hexchange ▸ hrest⟩
      · have heq := hpre.eq_of_length_le hmore
        have hnil : input es = [] := by simpa [heq] using hwhole
        have hread : parser.read {} (xs ++ e.received) =
            ⟨.finished, ⟨.kGotAll, r.request⟩, []⟩ := by
          rw [heq, ← read_render r [], List.append_nil]
        have hne : e.received ≠ [] := by
          intro he
          rw [he, List.append_nil] at heq
          exact absurd hlt (by simp [heq])
        obtain ⟨h', server, req, hstep, hf', hctx, hrest, hcontext, hreq, hexchange⟩ :=
          step_of_received hf haw.reading he hne ((haw.read_more _).trans hread)
        have haw' : h'.Awaits [] :=
          ⟨hctx, by rw [hrest, hcontext]; exact parser.read_of_none (by decide)⟩
        have hidle : [] ++ input es <+: r.render := by simp [hnil]
        obtain ⟨h'', hrun, hf'', haw'', hexchange'⟩ :=
          foldlM_of_part hes' hf' haw' hidle (by simpa [hnil] using Nat.zero_lt_of_lt hlt)
        rw [hnil] at haw''
        exact ⟨h'', server, req, by rw [List.foldlM_cons, hstep]; exact hrun, hf'', haw'', hreq rfl,
          hexchange'.trans hexchange⟩

/-- The parser has refused the input, and refuses it again whatever comes. -/
structure Refusing (h : HttpConnection) : Prop where
  reading : Reading h.context_
  rejected : (parser.read h.context_.eraseTime h.conn.inputBuffer_.readable).stop = .rejected
  closed : h.exchange.isOpen = false

/-- Nothing more is asked and nothing more is sent. -/
theorem Refusing.foldlM {es : List HttpEvent} (hes : ∀ e ∈ es, e.PeerStays) {h : HttpConnection}
    (hr : h.Refusing) (hf : h.Flowing) :
    ∃ h', es.foldlM HttpConnection.step h = some h' ∧ h'.Flowing ∧ h'.exchange = h.exchange := by
  induction es generalizing h with
  | nil => exact ⟨h, rfl, hf, rfl⟩
  | cons e es ih =>
      have hnext : ∃ h', h.step e = some h' ∧ h'.Flowing ∧ h'.Refusing ∧
          h'.exchange = h.exchange := by
        by_cases hnil : e.received = []
        · obtain ⟨h', hstep, hf', hcontext, hinput, hexchange⟩ :=
            step_of_received_nil hf (hes e (by simp)) hnil
          exact ⟨h', hstep, hf', ⟨hcontext ▸ hr.reading, by rw [hcontext, hinput, hr.rejected],
            hexchange ▸ hr.closed⟩, hexchange⟩
        · have hmore := parser.read_more_of_stopped h.context_.eraseTime
            h.conn.inputBuffer_.readable e.received (by simp [hr.rejected])
          have hstop := congrArg Resumable.Outcome.stop hmore
          have hagain := parser.read_again_of_rejected _ _ [] (hstop.trans hr.rejected)
          obtain ⟨h', server, req, hstep, hf', hctx, hrest, hcontext, -, hexchange⟩ :=
            step_of_received hf hr.reading (hes e (by simp)) hnil rfl
          rw [hstop, hr.rejected] at hexchange hcontext
          rw [if_neg (by decide)] at hcontext
          have hsame : h'.exchange = h.exchange := by
            rw [hexchange, actAt, Exchange.next, Exchange.accept_of_not_open hr.closed]
            exact congrArg (Exchange.mk · _ _) hr.closed.symm
          refine ⟨h', hstep, hf', ⟨hctx, ?_, hsame ▸ hr.closed⟩, hsame⟩
          rwa [List.append_nil, ← hrest, ← hcontext] at hagain
      obtain ⟨h', hstep, hf', hr', hexchange⟩ := hnext
      obtain ⟨h'', hrun, hf'', hexchange'⟩ := ih (fun e' he' => hes e' (by simp [he'])) hr' hf'
      exact ⟨h'', by rw [List.foldlM_cons, hstep]; exact hrun, hf'', hexchange'.trans hexchange⟩

/-- Input that the parser refuses gets one refusal, wherever it is cut. -/
theorem foldlM_of_rejected {es : List HttpEvent} (hes : ∀ e ∈ es, e.PeerStays) {h : HttpConnection}
    {xs : List UInt8} (hf : h.Flowing) (haw : h.Awaits xs)
    (hbad : (parser.read {} (xs ++ input es)).stop = .rejected) :
    ∃ h', es.foldlM step h = some h' ∧ h'.Flowing ∧ h'.exchange = h.exchange.next .refuse := by
  induction es generalizing h xs with
  | nil => simp [input, haw.so_far] at hbad
  | cons e es ih =>
      have he := hes e (by simp)
      have hes' : ∀ e' ∈ es, e'.PeerStays := fun e' he' => hes e' (by simp [he'])
      rw [input_cons, ← List.append_assoc] at hbad
      by_cases hstarved : (parser.read {} (xs ++ e.received)).stop = .starved
      · obtain ⟨h', hstep, hf', haw', hexchange⟩ := haw.step hf he hstarved
        obtain ⟨h'', hrun, hf'', hexchange'⟩ := ih hes' hf' haw' hbad
        exact ⟨h'', by rw [List.foldlM_cons, hstep]; exact hrun, hf'', hexchange ▸ hexchange'⟩
      · have hmore := parser.read_more_of_stopped {} _ (input es) hstarved
        have hstop : (parser.read {} (xs ++ e.received)).stop = .rejected := by
          rw [hmore] at hbad
          exact hbad
        have hne : e.received ≠ [] := by
          intro hnil
          rw [hnil, List.append_nil, haw.so_far] at hstop
          cases hstop
        obtain ⟨h', server, req, hstep, hf', hctx, hrest, hcontext, -, hexchange⟩ :=
          step_of_received hf haw.reading he hne (haw.read_more _)
        have hagain := parser.read_again_of_rejected {} _ [] hstop
        rw [hstop] at hexchange hcontext
        rw [if_neg (by decide)] at hcontext
        rw [List.append_nil, ← hrest, ← hcontext] at hagain
        have hr : h'.Refusing := ⟨hctx, hagain, by rw [hexchange]; rfl⟩
        obtain ⟨h'', hrun, hf'', hexchange'⟩ := hr.foldlM hes' hf'
        exact ⟨h'', by rw [List.foldlM_cons, hstep]; exact hrun, hf'', hexchange'.trans hexchange⟩

end HttpConnection

/-! ## Turns -/

/-- The request with which the callback is invoked has the parts of the client's. -/
structure ClientRequest.Asked (r : ClientRequest) (req : HttpRequest) : Prop where
  method : req.method_ = r.method
  version : req.version_ = r.version
  path : req.path_ = r.path
  query : req.query_ = r.query
  headers : ∀ name value, req.headers_[name]? = some value ↔ (name, value) ∈ r.fields

theorem ClientRequest.asked_of_eraseTime {r : ClientRequest} {req : HttpRequest}
    (h : req.eraseTime = r.text.request) : r.Asked req := by
  rw [request_text] at h
  have hheaders : req.headers_ = (∅ : Headers).insertMany r.fields :=
    congrArg HttpRequest.headers_ h
  refine ⟨congrArg HttpRequest.method_ h, congrArg HttpRequest.version_ h,
    congrArg HttpRequest.path_ h, congrArg HttpRequest.query_ h, ?_⟩
  intro name value
  rw [hheaders, getElem?_insertMany r.names_distinct]

/-- A request of a client and the events by which it comes in. -/
structure Turn where
  request : ClientRequest
  events : List HttpEvent
  stays : ∀ e ∈ events, e.PeerStays
  whole : input events = request.render

/-- The invocations whose responses are sent: those up to the first that closes. -/
def untilClosed : List Dispatch → List Dispatch
  | [] => []
  | d :: ds => if d.response.closeConnection_ then [d] else d :: untilClosed ds

theorem untilClosed_snoc (ds : List Dispatch) (d : Dispatch) :
    untilClosed (ds ++ [d]) =
      if ds.any Dispatch.closes then untilClosed ds else untilClosed ds ++ [d] := by
  induction ds with
  | nil => simp [untilClosed]
  | cons d' ds ih =>
      cases hclose : d'.response.closeConnection_ with
      | true => simp [untilClosed, hclose, Dispatch.closes]
      | false =>
          have hd' : d'.closes = false := hclose
          simp only [List.cons_append, untilClosed, hclose, ih, List.any_cons, hd', Bool.false_or]
          cases ds.any Dispatch.closes <;> rfl

namespace Exchange

/-- The exchange is open until a response closes it, and what it has accepted are the responses so
far. -/
structure InStep (x : Exchange) : Prop where
  isOpen : x.isOpen = !x.dispatched.any Dispatch.closes
  accepted : x.accepted = (untilClosed x.dispatched).map Dispatch.reply

theorem InStep.answer {x : Exchange} (h : x.InStep) (server : HttpServer) (req : HttpRequest) :
    (x.next (.answer server req)).InStep := by
  obtain ⟨hopen, haccepted⟩ := h
  constructor
  · simp [Exchange.next, hopen]
  · simp only [Exchange.next, accept, hopen, haccepted, untilClosed_snoc]
    cases x.dispatched.any Dispatch.closes <;> simp

end Exchange

namespace HttpConnection

/-- The output ends when what was accepted has been written and nothing more will be. -/
theorem Flowing.shutdownWrite_iff {h : HttpConnection} (hf : h.Flowing) :
    .shutdownWrite ∈ h.conn.socket_ ↔
      h.conn.outputBuffer_.readable = [] ∧ h.exchange.isOpen = false := by
  obtain ⟨⟨asked, hinv⟩, hstays, hended⟩ := hf
  have hopen : h.exchange.isOpen = false ↔ h.conn.state_ ≠ .kConnected := by
    simp [exchange, TcpConnection.connected]
  rw [hopen]
  constructor
  · exact fun hmem => ⟨(hinv.drained hmem).1, hinv.closing hmem⟩
  · rintro ⟨hempty, hnot⟩
    have hstate := hstays.resolve_left hnot
    apply hended hstate
    have hinterest := hinv.interest (.inr hstate)
    simpa [hempty] using hinterest

/-- What has been written and what waits is what has been accepted. -/
theorem Flowing.stream_eq {h : HttpConnection} (hf : h.Flowing) :
    written h.conn.socket_ ++ h.conn.outputBuffer_.readable = h.accepted.flatten := by
  obtain ⟨asked, hinv⟩ := hf.output
  exact hinv.stream hf.stays

/-- The run of a list of turns. -/
theorem run_turns (address fd : ℕ) (turns : List Turn) :
    ∃ h, run address fd (turns.flatMap Turn.events) = some h ∧ h.Flowing ∧ h.Awaits [] ∧
      h.exchange.InStep ∧
      List.Forall₂ (fun d t => t.request.Asked d.request) h.dispatched turns := by
  induction turns using List.reverseRecOn with
  | nil => exact ⟨_, rfl, flowing_new address fd, awaits_new address fd, ⟨rfl, rfl⟩, .nil⟩
  | append_singleton turns t ih =>
      obtain ⟨h, hrun, hf, haw, hstep, hasked⟩ := ih
      have hwhole : [] ++ input t.events = t.request.text.render := by
        rw [List.nil_append, t.whole, ClientRequest.render_text]
      obtain ⟨h', server, req, hmore, hf', haw', hreq, hexchange⟩ :=
        foldlM_of_whole t.stays hf haw (List.length_pos_iff.mpr t.request.text.render_ne_nil) hwhole
      refine ⟨h', ?_, hf', haw', hexchange ▸ hstep.answer server req, ?_⟩
      · rw [List.flatMap_append, List.flatMap_singleton, run, List.foldlM_append, ← run, hrun]
        exact hmore
      · have hdispatched : h'.dispatched = h.dispatched ++ [⟨server, req, h.exchange.isOpen⟩] :=
          congrArg Exchange.dispatched hexchange
        rw [hdispatched]
        exact List.rel_append hasked (.cons (ClientRequest.asked_of_eraseTime hreq) .nil)

/-- The run of a list of turns and of a part of one more request. -/
theorem run_dialogue (address fd : ℕ) (turns : List Turn) {r : ClientRequest} {es : List HttpEvent}
    (hes : ∀ e ∈ es, e.PeerStays) (hpart : input es <+: r.render) (hnot : input es ≠ r.render) :
    ∃ h, run address fd (turns.flatMap Turn.events ++ es) = some h ∧ h.Flowing ∧
      h.exchange.InStep ∧
      List.Forall₂ (fun d t => t.request.Asked d.request) h.dispatched turns := by
  obtain ⟨h, hrun, hf, haw, hx, hasked⟩ := run_turns address fd turns
  rw [← ClientRequest.render_text] at hpart hnot
  have hlt : ([] ++ input es).length < r.text.render.length :=
    Nat.lt_of_le_of_ne hpart.length_le fun hlen => hnot (hpart.eq_of_length hlen)
  obtain ⟨h', hmore, hf', -, hexchange⟩ := foldlM_of_part hes hf haw hpart hlt
  have hdispatched : h'.dispatched = h.dispatched := congrArg Exchange.dispatched hexchange
  refine ⟨h', ?_, hf', hexchange ▸ hx, hdispatched ▸ hasked⟩
  rw [run, List.foldlM_append, ← run, hrun]
  exact hmore

/-- A dialogue is open until a response closes. -/
theorem shutdownWrite_iff_of_inStep {h : HttpConnection} (hf : h.Flowing) (hx : h.exchange.InStep) :
    .shutdownWrite ∈ h.conn.socket_ ↔
      h.conn.outputBuffer_.readable = [] ∧
        ∃ d ∈ h.dispatched, d.response.closeConnection_ = true := by
  rw [hf.shutdownWrite_iff, hx.isOpen]
  simp [exchange, Dispatch.closes]

/-- At every moment of a dialogue the callback has been invoked once for each request that has come
in, with its parts and in the order of the requests. The client has got a beginning of the
responses up to the first that closes, the rest waits, and the end of the output comes when one
has closed and nothing waits. -/
theorem served_of_dialogue (address fd : ℕ) (turns : List Turn) (r : ClientRequest)
    (es : List HttpEvent) (hes : ∀ e ∈ es, e.PeerStays) (hpart : input es <+: r.render)
    (hnot : input es ≠ r.render) :
    ∃ h, run address fd (turns.flatMap Turn.events ++ es) = some h ∧
      List.Forall₂ (fun d t => t.request.Asked d.request) h.dispatched turns ∧
      written h.conn.socket_ ++ h.conn.outputBuffer_.readable =
        ((untilClosed h.dispatched).map fun d => d.response.serialised).flatten ∧
      (.shutdownWrite ∈ h.conn.socket_ ↔ h.conn.outputBuffer_.readable = [] ∧
        ∃ d ∈ h.dispatched, d.response.closeConnection_ = true) := by
  obtain ⟨h, hrun, hf, hx, hasked⟩ := run_dialogue address fd turns hes hpart hnot
  refine ⟨h, hrun, hasked, ?_, shutdownWrite_iff_of_inStep hf hx⟩
  rw [hf.stream_eq]
  exact congrArg List.flatten hx.accepted

/-! ## Draining -/

/-- Writable events at which the kernel takes the given numbers of bytes. -/
def writes (ns : List ℕ) : List HttpEvent := ns.map fun n => .handleWrite (.ok n)

theorem foldlM_writes (h : HttpConnection) (ns : List ℕ) :
    (writes ns).foldlM step h = some { h with conn := h.conn.writes ns } := by
  induction ns generalizing h with
  | nil => rfl
  | cons n ns ih =>
      rw [writes, List.map_cons, List.foldlM_cons]
      exact ih { h with conn := h.conn.handleWrite (.ok n) }

/-- As many events as bytes that wait are enough, if the kernel takes one byte at each. -/
theorem Flowing.drained {h : HttpConnection} (hf : h.Flowing) {ns : List ℕ}
    (hpos : ∀ n ∈ ns, 0 < n) (hlen : h.conn.outputBuffer_.readable.length ≤ ns.length) :
    ∃ h', (writes ns).foldlM step h = some h' ∧ h'.Flowing ∧ h'.exchange = h.exchange ∧
      h'.conn.outputBuffer_.readable = [] := by
  obtain ⟨⟨asked, hinv⟩, hstays, hended⟩ := hf
  have hstate := h.conn.writes_state_ ns
  refine ⟨_, foldlM_writes h ns, ⟨⟨asked, hinv.writes ns⟩, ?_, hended.writes ns⟩, ?_,
    hinv.drained_writes hstays hpos hlen⟩
  · rwa [hstate]
  · simp only [exchange, TcpConnection.connected, hstate]

/-- A dialogue comes to its end from every moment, also in the middle of a request. When the kernel
has taken bytes at enough writable events, the client has got all responses up to the first that
closes, and the end of the output if there is one. A client that asks once, and gets a response
that closes, reads the parts of the response. -/
theorem delivered_of_dialogue (address fd : ℕ) (turns : List Turn) (r : ClientRequest)
    (es : List HttpEvent) (hes : ∀ e ∈ es, e.PeerStays) (hpart : input es <+: r.render)
    (hnot : input es ≠ r.render) :
    ∃ h, run address fd (turns.flatMap Turn.events ++ es) = some h ∧
      List.Forall₂ (fun d t => t.request.Asked d.request) h.dispatched turns ∧
      ∀ ns, (∀ n ∈ ns, 0 < n) → h.conn.outputBuffer_.readableBytes ≤ ns.length →
        ∃ h', run address fd (turns.flatMap Turn.events ++ es ++ writes ns) = some h' ∧
          h'.dispatched = h.dispatched ∧
          written h'.conn.socket_ =
            ((untilClosed h.dispatched).map fun d => d.response.serialised).flatten ∧
          (.shutdownWrite ∈ h'.conn.socket_ ↔
            ∃ d ∈ h.dispatched, d.response.closeConnection_ = true) ∧
          ∀ d, h.dispatched = [d] → d.response.closeConnection_ = true → d.response.WellFormed →
            HttpResponse.read? (written h'.conn.socket_) =
              some ⟨d.response.statusCode_, d.response.statusMessage_, d.response.expectedFields,
                d.response.body_⟩ := by
  obtain ⟨h, hrun, hf, hx, hasked⟩ := run_dialogue address fd turns hes hpart hnot
  refine ⟨h, hrun, hasked, ?_⟩
  intro ns hpos hlen
  rw [← Buffer.length_readable] at hlen
  obtain ⟨h', hmore, hf', hexchange, hempty⟩ := hf.drained hpos hlen
  rw [← hexchange] at hx
  have hdispatched : h'.dispatched = h.dispatched := congrArg Exchange.dispatched hexchange
  have hstream := hf'.stream_eq.trans (congrArg List.flatten hx.accepted)
  have hend := shutdownWrite_iff_of_inStep hf' hx
  rw [hempty, List.append_nil,
    show h'.exchange.dispatched = h.dispatched from hdispatched] at hstream
  refine ⟨h', ?_, hdispatched, hstream, ?_, ?_⟩
  · rw [run, List.foldlM_append, ← run, hrun]
    exact hmore
  · rw [hend, hdispatched]
    exact and_iff_right hempty
  · intro d hd hclose hwell
    rw [hstream, hd]
    simp only [untilClosed, hclose, if_true, List.map_cons, List.map_nil, List.flatten_singleton]
    exact d.response.read?_serialised hwell hclose

/-- The search comes in two pieces, and in between the socket becomes writable. -/
def searchTurn : Turn where
  request := ClientRequest.search
  events :=
    [.handleRead { received := .ok (ClientRequest.search.render.take 20) }, .handleWrite (.ok 0),
      .handleRead { received := .ok (ClientRequest.search.render.drop 20) }]
  stays := by
    simp only [List.forall_mem_cons, HttpEvent.PeerStays, Writable, Nat.le_refl, implies_true,
      and_true, List.not_mem_nil, false_implies]
    decide +kernel
  whole := by simp [input, HttpEvent.received, Except.toOption]

/-- The second request is not yet whole. -/
theorem served_searchTurn :
    ∃ h, run 1 7 ([searchTurn].flatMap Turn.events ++
        [.handleRead { received := .ok (ascii "GET /sea") }]) = some h ∧
      List.Forall₂ (fun d t => t.request.Asked d.request) h.dispatched [searchTurn] ∧
      written h.conn.socket_ ++ h.conn.outputBuffer_.readable =
        ((untilClosed h.dispatched).map fun d => d.response.serialised).flatten ∧
      (.shutdownWrite ∈ h.conn.socket_ ↔ h.conn.outputBuffer_.readable = [] ∧
        ∃ d ∈ h.dispatched, d.response.closeConnection_ = true) :=
  served_of_dialogue 1 7 [searchTurn] ClientRequest.search
    [.handleRead { received := .ok (ascii "GET /sea") }]
    (by simp [HttpEvent.PeerStays, Writable, ascii]) (by decide +kernel) (by decide +kernel)

/-- From the middle of the second request the first response is written to its end. -/
theorem delivered_searchTurn :
    ∃ h, run 1 7 ([searchTurn].flatMap Turn.events ++
        [.handleRead { received := .ok (ascii "GET /sea") }]) = some h ∧
      List.Forall₂ (fun d t => t.request.Asked d.request) h.dispatched [searchTurn] ∧
      ∀ ns, (∀ n ∈ ns, 0 < n) → h.conn.outputBuffer_.readableBytes ≤ ns.length →
        ∃ h', run 1 7 ([searchTurn].flatMap Turn.events ++
            [.handleRead { received := .ok (ascii "GET /sea") }] ++ writes ns) = some h' ∧
          h'.dispatched = h.dispatched ∧
          written h'.conn.socket_ =
            ((untilClosed h.dispatched).map fun d => d.response.serialised).flatten ∧
          (.shutdownWrite ∈ h'.conn.socket_ ↔
            ∃ d ∈ h.dispatched, d.response.closeConnection_ = true) ∧
          ∀ d, h.dispatched = [d] → d.response.closeConnection_ = true → d.response.WellFormed →
            HttpResponse.read? (written h'.conn.socket_) =
              some ⟨d.response.statusCode_, d.response.statusMessage_, d.response.expectedFields,
                d.response.body_⟩ :=
  delivered_of_dialogue 1 7 [searchTurn] ClientRequest.search
    [.handleRead { received := .ok (ascii "GET /sea") }]
    (by simp [HttpEvent.PeerStays, Writable, ascii]) (by decide +kernel) (by decide +kernel)

end HttpConnection

end CkServer
