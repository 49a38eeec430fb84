import CkServer.Model.HttpConnection
import CkServer.Verification.Http.Incremental
import CkServer.Verification.Http.Response
import CkServer.Verification.Tcp.Output

/-! # Requests and responses on one connection

Whatever the parser makes of the input, a connection of the server does one of four things
at an event. Seen so, it is an exchange: it answers requests while it is open, and when it
is not, it invokes the callback and drops the response. -/

namespace CkServer

open Text HttpContext

/-- The text that `send` gets for an invocation of the callback. -/
def Dispatch.reply (d : Dispatch) : List UInt8 := d.response.serialised

def Dispatch.closes (d : Dispatch) : Bool := d.response.closeConnection_

/-- What is sent is the response as a client reads it. -/
theorem HttpResponse.serialised_eq (resp : HttpResponse) :
    resp.serialised = resp.message resp.writtenFields := by
  rw [serialised, Buffer.retrieveAllAsString_fst, readable_appendToBuffer, Buffer.readable_new,
    List.nil_append]

/-! ## Exchanges -/

structure Exchange where
  isOpen : Bool
  dispatched : List Dispatch
  accepted : List (List UInt8)

namespace Exchange

inductive Act where
  | idle
  | hangUp
  | refuse
  | answer (server : HttpServer) (req : HttpRequest)

def Act.isAnswer : Act → Bool
  | .answer _ _ => true
  | _ => false

def accept (x : Exchange) (msg : List UInt8) : List (List UInt8) :=
  if x.isOpen then x.accepted ++ [msg] else x.accepted

def next (x : Exchange) : Act → Exchange
  | .idle => x
  | .hangUp => { x with isOpen := false }
  | .refuse => { x with isOpen := false, accepted := x.accept HttpServer.badRequest }
  | .answer server req =>
      let d : Dispatch := ⟨server, req, x.isOpen⟩
      { isOpen := x.isOpen && !d.closes
        dispatched := x.dispatched ++ [d]
        accepted := x.accept d.reply }

/-- What has been accepted: the replies to the requests served, and perhaps a refusal. The
requests dropped came later, and nothing comes after a reply that closes. -/
structure Orderly (x : Exchange) (served dropped : List Dispatch) (refused : Bool) : Prop where
  dispatched : x.dispatched = served ++ dropped
  served_connected : ∀ d ∈ served, d.connected = true
  dropped_not_connected : ∀ d ∈ dropped, d.connected = false
  accepted : x.accepted =
    served.map Dispatch.reply ++ if refused then [HttpServer.badRequest] else []
  last : ∀ before d after, served = before ++ d :: after → d.closes = true →
    after = [] ∧ refused = false
  while_open : x.isOpen = true → dropped = [] ∧ refused = false ∧ ∀ d ∈ served, d.closes = false

theorem accept_of_open {x : Exchange} (h : x.isOpen = true) (msg : List UInt8) :
    x.accept msg = x.accepted ++ [msg] := if_pos h

theorem accept_of_not_open {x : Exchange} (h : x.isOpen = false) (msg : List UInt8) :
    x.accept msg = x.accepted := if_neg (by simp [h])

/-- Once an exchange is not open it stays so, and accepts nothing. -/
theorem next_of_not_open {x : Exchange} (h : x.isOpen = false) (a : Act) :
    (x.next a).isOpen = false ∧ (x.next a).accepted = x.accepted := by
  cases a with
  | idle => exact ⟨h, rfl⟩
  | hangUp => exact ⟨rfl, rfl⟩
  | refuse => exact ⟨rfl, accept_of_not_open h _⟩
  | answer server req => exact ⟨by simp [next, h], accept_of_not_open h _⟩

theorem orderly_new : Orderly ⟨true, [], []⟩ [] [] false where
  dispatched := rfl
  served_connected := by simp
  dropped_not_connected := by simp
  accepted := rfl
  last := by
    intro before d after heq
    simp at heq
  while_open := by simp

/-- Serving one more request, after others that did not close. -/
theorem last_snoc {served before after : List Dispatch} {d d' : Dispatch}
    (hnone : ∀ d ∈ served, d.closes = false) (heq : served ++ [d] = before ++ d' :: after)
    (hcloses : d'.closes = true) : after = [] := by
  rcases List.eq_nil_or_concat after with hnil | ⟨after', z, rfl⟩
  · exact hnil
  · rw [List.concat_eq_append, ← List.cons_append, ← List.append_assoc] at heq
    obtain ⟨rfl, -⟩ := List.append_inj' heq rfl
    rw [hnone d' (by simp)] at hcloses
    cases hcloses

theorem Orderly.answer {x : Exchange} {served dropped : List Dispatch} {refused : Bool}
    (h : x.Orderly served dropped refused) (server : HttpServer) (req : HttpRequest) :
    ∃ served' dropped', (x.next (.answer server req)).Orderly served' dropped' refused := by
  cases hopen : x.isOpen with
  | true =>
      obtain ⟨rfl, rfl, hnone⟩ := h.while_open hopen
      refine ⟨served ++ [⟨server, req, true⟩], [], ?_, ?_, by simp, ?_, ?_, ?_⟩
      · simpa [next, hopen] using h.dispatched
      · intro d hd
        rcases List.mem_append.mp hd with hd | hd
        · exact h.served_connected d hd
        · rw [List.mem_singleton.mp hd]
      · have haccepted := h.accepted
        simp only [next, accept_of_open hopen, haccepted, hopen]
        simp
      · intro before d after heq hcloses
        exact ⟨last_snoc hnone heq hcloses, rfl⟩
      · intro hstill
        refine ⟨rfl, rfl, ?_⟩
        intro d hd
        rcases List.mem_append.mp hd with hd | hd
        · exact hnone d hd
        · rw [List.mem_singleton.mp hd]
          simpa [next, hopen] using hstill
  | false =>
      refine ⟨served, dropped ++ [⟨server, req, false⟩], ?_, h.served_connected, ?_, ?_, h.last, ?_⟩
      · simp [next, h.dispatched, hopen]
      · intro d hd
        rcases List.mem_append.mp hd with hd | hd
        · exact h.dropped_not_connected d hd
        · rw [List.mem_singleton.mp hd]
      · rw [(next_of_not_open hopen _).2, h.accepted]
      · intro hstill
        rw [(next_of_not_open hopen _).1] at hstill
        cases hstill

theorem Orderly.refuse {x : Exchange} {served dropped : List Dispatch} {refused : Bool}
    (h : x.Orderly served dropped refused) :
    ∃ refused', (x.next .refuse).Orderly served dropped refused' := by
  cases hopen : x.isOpen with
  | true =>
      obtain ⟨rfl, rfl, hnone⟩ := h.while_open hopen
      refine ⟨true, h.dispatched, h.served_connected, h.dropped_not_connected, ?_, ?_,
        by simp [next]⟩
      · simp [next, accept_of_open hopen, h.accepted]
      · rintro before d after rfl hcloses
        rw [hnone d (by simp)] at hcloses
        cases hcloses
  | false =>
      refine ⟨refused, h.dispatched, h.served_connected, h.dropped_not_connected, ?_, h.last,
        by simp [next]⟩
      rw [(next_of_not_open hopen _).2, h.accepted]

theorem Orderly.next {x : Exchange} {served dropped : List Dispatch} {refused : Bool}
    (h : x.Orderly served dropped refused) (a : Act) :
    ∃ served' dropped' refused', (x.next a).Orderly served' dropped' refused' := by
  cases a with
  | idle => exact ⟨served, dropped, refused, h⟩
  | hangUp =>
      exact ⟨served, dropped, refused, h.dispatched, h.served_connected, h.dropped_not_connected,
        h.accepted, h.last, by simp [Exchange.next]⟩
  | refuse =>
      obtain ⟨refused', h'⟩ := h.refuse
      exact ⟨served, dropped, refused', h'⟩
  | answer server req =>
      obtain ⟨served', dropped', h'⟩ := h.answer server req
      exact ⟨served', dropped', refused, h'⟩

/-- An answer is the one act that can invoke the callback too late. -/
theorem connected_next (x : Exchange) (a : Act) :
    (∀ d ∈ (x.next a).dispatched, d.connected = true) ↔
      (∀ d ∈ x.dispatched, d.connected = true) ∧ (a.isAnswer = true → x.isOpen = true) := by
  cases a with
  | idle => simp [Exchange.next, Act.isAnswer]
  | hangUp => simp [Exchange.next, Act.isAnswer]
  | refuse => simp [Exchange.next, Act.isAnswer]
  | answer server req => simp [Exchange.next, Act.isAnswer, or_imp, forall_and]

/-- A refusal or a reply that closes has ended the exchange. -/
theorem Orderly.not_open {x : Exchange} {served dropped : List Dispatch} {refused : Bool}
    (h : x.Orderly served dropped refused)
    (hend : refused = true ∨ ∃ d ∈ served, d.closes = true) : x.isOpen = false := by
  by_contra hopen
  obtain ⟨-, rfl, hnone⟩ := h.while_open (by simpa using hopen)
  rcases hend with hrefused | ⟨d, hd, hcloses⟩
  · cases hrefused
  · rw [hnone d hd] at hcloses
    cases hcloses

end Exchange

/-! ## What an event does -/

namespace HttpServer

/-- The calls of `onMessage`, by the reason for which the parser has stopped. -/
def callsAt (server : HttpServer) (req : HttpRequest) : Resumable.Stop → List ServerCall
  | .starved => []
  | .finished => server.onRequest req
  | .rejected => refusal

theorem onRequest_eq (server : HttpServer) (req : HttpRequest) :
    server.onRequest req =
      [.httpCallback req, .send (server.response req).serialised] ++
        if (server.response req).closeConnection_ then [.shutdown] else [] := rfl

/-- What `onMessage` calls, leaves in the buffer and keeps in the context, by what the reader makes
of the input. -/
theorem onMessage_spec (server : HttpServer) {ctx : HttpContext} (hctx : Reading ctx)
    (buf : Buffer) (t : Timestamp) {o : Resumable.Outcome HttpContext UInt8}
    (ho : parser.read ctx.eraseTime buf.readable = o) :
    ∃ ctx' buf' req, server.onMessage ctx buf t = some (ctx', buf', server.callsAt req o.stop) ∧
      Reading ctx' ∧ buf'.readable = o.rest ∧
      ctx'.eraseTime = (if o.stop = .finished then {} else o.state) ∧
      (o.stop = .finished → req.eraseTime = o.state.request_) := by
  obtain ⟨ok, ctx', buf', hparse, hfollows⟩ := parseRequest_spec ctx buf t hctx
  have hgot := gotAll_iff_of_follows hctx hfollows
  have hstate := state_read ctx.eraseTime buf.readable hctx
  rw [ho] at hgot hfollows hstate
  obtain ⟨hok, hcontext, hrest⟩ := hfollows
  rw [← hcontext] at hstate
  cases hstop : o.stop with
  | finished =>
      rw [hstop] at hgot hok
      refine ⟨ctx'.reset, buf', ctx'.request_, ?_, .inl rfl, hrest, rfl,
        fun _ => congrArg HttpContext.request_ hcontext⟩
      simp [onMessage, hparse, hgot, callsAt, show ok = true by simpa using hok]
  | starved =>
      rw [hstop] at hgot hok hstate
      refine ⟨ctx', buf', {}, ?_, hstate.2 (by decide), hrest, hcontext, by simp⟩
      simp [onMessage, hparse, hgot, callsAt, show ok = true by simpa using hok]
  | rejected =>
      rw [hstop] at hgot hok hstate
      refine ⟨ctx', buf', {}, ?_, hstate.2 (by decide), hrest, hcontext, by simp⟩
      simp [onMessage, hparse, hgot, callsAt, show ok = false by simpa using hok]

end HttpServer

namespace HttpConnection

/-- The exchange on a connection. -/
def exchange (h : HttpConnection) : Exchange := ⟨h.conn.connected, h.dispatched, h.accepted⟩

theorem exchange_httpCallback (h : HttpConnection) (o : ReadEvent) (req : HttpRequest) :
    (h.perform o (.httpCallback req)).exchange =
      { h.exchange with
        dispatched := h.dispatched ++ [⟨o.server, req, h.conn.connected⟩] } := rfl

theorem exchange_send (h : HttpConnection) (o : ReadEvent) (msg : List UInt8) :
    (h.perform o (.send msg)).exchange =
      { h.exchange with accepted := h.exchange.accept msg } := by
  have hstate : (h.conn.send msg (o.written msg)).state_ = h.conn.state_ := by
    simp only [TcpConnection.send]
    split <;> simp
  simp [exchange, perform, Exchange.accept, TcpConnection.connected, hstate]

theorem exchange_shutdown (h : HttpConnection) (o : ReadEvent) :
    (h.perform o .shutdown).exchange = { h.exchange with isOpen := false } := by
  have hstate : h.conn.shutdown.connected = false := by
    by_cases hconn : h.conn.state_ = .kConnected
    · simp [TcpConnection.shutdown, TcpConnection.connected, hconn, TcpConnection.setState]
    · simp [TcpConnection.shutdown, TcpConnection.connected, hconn]
  simp [exchange, perform, hstate]

@[simp] theorem context_perform (h : HttpConnection) (o : ReadEvent) (call : ServerCall) :
    (h.perform o call).context_ = h.context_ := by
  cases call <;> rfl

theorem context_foldl_perform (o : ReadEvent) (calls : List ServerCall) (h : HttpConnection) :
    (calls.foldl (perform o) h).context_ = h.context_ := by
  induction calls generalizing h with
  | nil => rfl
  | cons call calls ih => rw [List.foldl_cons, ih, context_perform]

/-- What is done where the parser has stopped for the given reason. -/
def actAt (server : HttpServer) (req : HttpRequest) : Resumable.Stop → Exchange.Act
  | .starved => .idle
  | .finished => .answer server req
  | .rejected => .refuse

theorem exchange_foldl_perform (h : HttpConnection) (o : ReadEvent) (req : HttpRequest)
    (stop : Resumable.Stop) :
    ((o.server.callsAt req stop).foldl (perform o) h).exchange =
      h.exchange.next (actAt o.server req stop) := by
  cases stop with
  | starved => rfl
  | rejected =>
      simp only [HttpServer.callsAt, HttpServer.refusal, List.foldl_cons, List.foldl_nil]
      rw [exchange_shutdown, exchange_send]
      rfl
  | finished =>
      simp only [HttpServer.callsAt, HttpServer.onRequest_eq, List.foldl_append, List.foldl_cons,
        List.foldl_nil]
      cases hclose : (o.server.response req).closeConnection_ with
      | true =>
          simp only [if_true, List.foldl_cons, List.foldl_nil]
          rw [exchange_shutdown, exchange_send, exchange_httpCallback]
          simp [exchange, Exchange.next, Exchange.accept, actAt, Dispatch.closes, Dispatch.reply,
            Dispatch.response, hclose]
      | false =>
          simp only [Bool.false_eq_true, if_false, List.foldl_nil]
          rw [exchange_send, exchange_httpCallback]
          simp [exchange, Exchange.next, Exchange.accept, actAt, Dispatch.closes, Dispatch.reply,
            Dispatch.response, hclose]

/-- A read event brings bytes that, after those which wait, complete a request. -/
def Completes (h : HttpConnection) : HttpEvent → Prop
  | .handleRead o => ∃ data, o.received = .ok data ∧ data ≠ [] ∧
      (parser.read h.context_.eraseTime (h.conn.inputBuffer_.readable ++ data)).stop = .finished
  | _ => False

theorem connected_connectDestroyed (c : TcpConnection) : c.connectDestroyed.connected = false := by
  have hremove (c : TcpConnection) : c.remove.state_ = c.state_ := rfl
  by_cases hconn : c.state_ = .kConnected
  · simp [TcpConnection.connectDestroyed, TcpConnection.connected, hconn, hremove]
  · simp [TcpConnection.connectDestroyed, TcpConnection.connected, hconn, hremove]

/-- The connection when `readFd` has taken the bytes in. -/
def withInput (h : HttpConnection) (data : List UInt8) : HttpConnection :=
  { h with conn := { h.conn with inputBuffer_ := (h.conn.inputBuffer_.readFd (.ok data)).1 } }

/-- `handleRead` when `readv` has succeeded. No byte at all is the end of the input. -/
theorem handleRead_ok (h : HttpConnection) {o : ReadEvent} {data : List UInt8}
    (hread : o.received = .ok data) :
    h.handleRead o =
      if data.length > 0 then (h.withInput data).onMessage o (h.withInput data).conn.inputBuffer_
      else some { h with conn := (h.withInput data).conn.handleClose } := by
  have hpair : h.conn.inputBuffer_.readFd (.ok data) =
      ((h.conn.inputBuffer_.readFd (.ok data)).1, .ok data.length) :=
    Prod.ext rfl (Buffer.readFd_snd_ok _ data)
  simp only [handleRead, hread]
  rw [hpair]
  rfl

theorem onMessage_spec {h : HttpConnection} (hctx : Reading h.context_) (o : ReadEvent)
    (buf : Buffer) :
    ∃ h' req, h.onMessage o buf = some h' ∧ Reading h'.context_ ∧
      h'.exchange = h.exchange.next
        (actAt o.server req (parser.read h.context_.eraseTime buf.readable).stop) := by
  obtain ⟨ctx', buf', req, hcalls, hctx', -⟩ :=
    o.server.onMessage_spec hctx buf o.receiveTime rfl
  refine ⟨_, req, by rw [onMessage, hcalls, Option.map_some], ?_, ?_⟩
  · rwa [context_foldl_perform]
  · rw [exchange_foldl_perform]
    rfl

theorem isAnswer_actAt (server : HttpServer) (req : HttpRequest) (stop : Resumable.Stop) :
    (actAt server req stop).isAnswer = true ↔ stop = .finished := by
  cases stop <;> simp [actAt, Exchange.Act.isAnswer]

/-- Every event is one act of the exchange, and it is an answer where a request is complete. -/
theorem step_spec {h : HttpConnection} (hctx : Reading h.context_) (e : HttpEvent) :
    ∃ h' a, h.step e = some h' ∧ Reading h'.context_ ∧ h'.exchange = h.exchange.next a ∧
      (a.isAnswer = true ↔ h.Completes e) := by
  cases e with
  | handleWrite r =>
      refine ⟨_, .idle, rfl, hctx, ?_, by simp [Exchange.Act.isAnswer, Completes]⟩
      simp [exchange, Exchange.next, TcpConnection.connected]
  | handleClose => exact ⟨_, .hangUp, rfl, hctx, rfl, by simp [Exchange.Act.isAnswer, Completes]⟩
  | connectDestroyed =>
      refine ⟨_, .hangUp, rfl, hctx, ?_, by simp [Exchange.Act.isAnswer, Completes]⟩
      simp [exchange, Exchange.next, connected_connectDestroyed]
  | handleRead o =>
      cases hread : o.received with
      | error e =>
          refine ⟨_, .idle, by simp only [step, handleRead, hread, Buffer.readFd_error], hctx, rfl,
            ?_⟩
          simp [Exchange.Act.isAnswer, Completes, hread]
      | ok data =>
          have hstep := h.handleRead_ok hread
          by_cases hnil : data = []
          · rw [if_neg (by simp [hnil])] at hstep
            refine ⟨_, .hangUp, hstep, hctx, rfl, ?_⟩
            simp [Exchange.Act.isAnswer, Completes, hread, hnil]
          · rw [if_pos (List.length_pos_iff.mpr hnil)] at hstep
            have hctx' : Reading (h.withInput data).context_ := hctx
            obtain ⟨h', req, hh', hctx', hexchange⟩ := onMessage_spec hctx' o _
            refine ⟨h', _, hstep.trans hh', hctx', hexchange, ?_⟩
            rw [isAnswer_actAt, withInput, Buffer.readable_readFd_ok]
            simp [Completes, hread, hnil]

/-! ## Runs -/

section Runs

variable (address fd : ℕ) (es : List HttpEvent)

theorem run_snoc (e : HttpEvent) :
    run address fd (es ++ [e]) = (run address fd es).bind fun h => h.step e := by
  simp [run]

/-- Every run returns, with an orderly exchange. -/
theorem run_orderly :
    ∃ h served dropped refused, run address fd es = some h ∧ Reading h.context_ ∧
      h.exchange.Orderly served dropped refused := by
  induction es using List.reverseRecOn with
  | nil => exact ⟨_, [], [], false, rfl, .inl rfl, Exchange.orderly_new⟩
  | append_singleton es e ih =>
      obtain ⟨h, served, dropped, refused, hrun, hctx, horderly⟩ := ih
      obtain ⟨h', a, hstep, hctx', hexchange, -⟩ := step_spec hctx e
      obtain ⟨served', dropped', refused', horderly'⟩ := horderly.next a
      rw [← hexchange] at horderly'
      refine ⟨h', served', dropped', refused', ?_, hctx', horderly'⟩
      rw [run_snoc, hrun, Option.bind_some, hstep]

/-- A connection that has left `kConnected` accepts nothing at any further event. -/
theorem accepted_of_not_open (more : List HttpEvent) {h : HttpConnection}
    (hctx : Reading h.context_) (hopen : h.exchange.isOpen = false) :
    ∃ h', more.foldlM step h = some h' ∧ h'.accepted = h.accepted := by
  induction more generalizing h with
  | nil => exact ⟨h, rfl, rfl⟩
  | cons e more ih =>
      obtain ⟨h', a, hstep, hctx', hexchange, -⟩ := step_spec hctx e
      have hnext := Exchange.next_of_not_open hopen a
      rw [← hexchange] at hnext
      obtain ⟨h'', hrun, haccepted⟩ := ih hctx' hnext.1
      refine ⟨h'', by rw [List.foldlM_cons, hstep]; exact hrun, ?_⟩
      rw [haccepted]
      exact hnext.2

/-- Replies leave in the order of the requests, each once, and after a reply that closes or a
refusal nothing more is accepted. -/
theorem replies_of_run :
    ∃ h served dropped refused, run address fd es = some h ∧
      h.dispatched = served ++ dropped ∧
      h.accepted = served.map (fun d => d.response.serialised) ++
        (if refused then [HttpServer.badRequest] else []) ∧
      (∀ before d after, served = before ++ d :: after → d.response.closeConnection_ = true →
        after = [] ∧ refused = false) ∧
      ((refused = true ∨ ∃ d ∈ served, d.response.closeConnection_ = true) →
        ∀ more, ∃ h', run address fd (es ++ more) = some h' ∧ h'.accepted = h.accepted) := by
  obtain ⟨h, served, dropped, refused, hrun, hctx, horderly⟩ := run_orderly address fd es
  refine ⟨h, served, dropped, refused, hrun, horderly.dispatched, horderly.accepted,
    horderly.last, ?_⟩
  intro hend more
  obtain ⟨h', hmore, haccepted⟩ := accepted_of_not_open more hctx (horderly.not_open hend)
  refine ⟨h', ?_, haccepted⟩
  rw [run, List.foldlM_append, ← run, hrun]
  exact hmore

/-! ## Requests that come too late -/

/-- Every invocation of the callback found the connection connected, and its reply has been
accepted once. -/
def Answered (h : HttpConnection) : Prop :=
  (∀ d ∈ h.dispatched, d.connected = true) ∧
    ∃ refused : Bool, h.accepted = h.dispatched.map (fun d => d.response.serialised) ++
      if refused then [HttpServer.badRequest] else []

/-- No message that comes when the connection has left `kConnected` completes a request. -/
def QuietAfterEnd : Prop :=
  ∀ before e, before ++ [e] <+: es → ∀ h, run address fd before = some h →
    h.conn.state_ ≠ .kConnected → ¬ h.Completes e

theorem quietAfterEnd_nil : QuietAfterEnd address fd [] := by
  intro before e hpre
  simp at hpre

theorem quietAfterEnd_snoc (e : HttpEvent) :
    QuietAfterEnd address fd (es ++ [e]) ↔ QuietAfterEnd address fd es ∧
      ∀ h, run address fd es = some h → h.conn.state_ ≠ .kConnected → ¬ h.Completes e := by
  constructor
  · intro hquiet
    exact ⟨fun before e' hpre => hquiet before e' (hpre.trans (List.prefix_append es [e])),
      hquiet es e List.prefix_rfl⟩
  · rintro ⟨hquiet, hlast⟩ before e' hpre
    rcases List.prefix_concat_iff.mp (by simpa using hpre) with heq | hpre
    · obtain ⟨rfl, he⟩ := List.append_inj' heq rfl
      rw [List.singleton_inj.mp he]
      exact hlast
    · exact hquiet before e' hpre

/-- The callback is invoked on a connected connection only, exactly if no request is completed
afterwards. -/
theorem connected_iff_quietAfterEnd {h : HttpConnection} (hrun : run address fd es = some h) :
    (∀ d ∈ h.dispatched, d.connected = true) ↔ QuietAfterEnd address fd es := by
  induction es using List.reverseRecOn generalizing h with
  | nil =>
      obtain rfl : new address fd = h := Option.some.inj hrun
      exact iff_of_true (by simp [new]) (quietAfterEnd_nil address fd)
  | append_singleton es e ih =>
      obtain ⟨h₀, -, -, -, hrun₀, hctx, -⟩ := run_orderly address fd es
      obtain ⟨h', a, hstep, -, hexchange, hanswer⟩ := step_spec hctx e
      rw [run_snoc, hrun₀, Option.bind_some, hstep] at hrun
      obtain rfl : h' = h := Option.some.inj hrun
      have hnext := h₀.exchange.connected_next a
      rw [← hexchange, hanswer] at hnext
      rw [quietAfterEnd_snoc, ← ih hrun₀]
      refine hnext.trans (and_congr_right fun _ => ?_)
      constructor
      · intro hopen h hh hstate hcompletes
        obtain rfl : h₀ = h := Option.some.inj (hrun₀.symm.trans hh)
        exact hstate (by simpa [exchange, TcpConnection.connected] using hopen hcompletes)
      · intro hquiet hcompletes
        by_contra hopen
        refine hquiet h₀ hrun₀ ?_ hcompletes
        simpa [exchange, TcpConnection.connected] using hopen

/-- Every request is answered exactly if none is completed after the connection has left
`kConnected`. -/
theorem answered_iff :
    (∃ h, run address fd es = some h ∧ h.Answered) ↔ QuietAfterEnd address fd es := by
  obtain ⟨h, served, dropped, refused, hrun, -, horderly⟩ := run_orderly address fd es
  rw [← connected_iff_quietAfterEnd address fd es hrun]
  constructor
  · rintro ⟨h', hrun', hanswered⟩
    obtain rfl : h = h' := Option.some.inj (hrun.symm.trans hrun')
    exact hanswered.1
  · intro hconnected
    have hall : h.dispatched = served ++ dropped := horderly.dispatched
    have hdropped : dropped = [] := by
      apply List.eq_nil_iff_forall_not_mem.mpr
      intro d hd
      have hyes := hconnected d (by simp [hall, hd])
      rw [horderly.dropped_not_connected d hd] at hyes
      cases hyes
    have hserved : h.dispatched = served := by rw [hall, hdropped, List.append_nil]
    exact ⟨h, hrun, hconnected, refused, hserved ▸ horderly.accepted⟩

end Runs

/-- `GET / HTTP/1.1` without headers, in a message of its own. The server has no callback set. -/
def rootMessage : HttpEvent := .handleRead { received := .ok (ascii "GET / HTTP/1.1\r\n\r\n") }

/-- The default response closes the connection, and the callback is invoked for the second
request all the same. -/
theorem not_answered_rootMessages :
    ∃ h, run 1 7 [rootMessage, rootMessage] = some h ∧
      h.dispatched.map Dispatch.connected = [true, false] ∧ h.accepted.length = 1 ∧
      ¬ h.Answered := by
  have hboth : (run 1 7 [rootMessage, rootMessage]).map
      (fun h => (h.dispatched.map Dispatch.connected, h.accepted.length)) =
        some ([true, false], 1) := by
    decide +kernel
  obtain ⟨h, hrun, hpair⟩ := Option.map_eq_some_iff.mp hboth
  obtain ⟨hflags, hlength⟩ := Prod.mk.inj hpair
  refine ⟨h, hrun, hflags, hlength, ?_⟩
  intro hanswered
  have hfalse : false ∈ h.dispatched.map Dispatch.connected := by simp [hflags]
  obtain ⟨d, hd, hnot⟩ := List.mem_map.mp hfalse
  rw [hanswered.1 d hd] at hnot
  cases hnot

end HttpConnection

/-! ## What is accepted is sent -/

/-- No write of the event finds the peer gone. -/
def HttpEvent.Writable : HttpEvent → Prop
  | .handleRead o => ∀ msg, o.written msg ≠ .error .EPIPE ∧ o.written msg ≠ .error .ECONNRESET
  | _ => True

namespace HttpConnection

/-- The bytes written and those that wait are the strings accepted. -/
def Sent (h : HttpConnection) : Prop := h.conn.stream = h.accepted.flatten

theorem sent_new (address fd : ℕ) : (new address fd).Sent := rfl

theorem Sent.perform {h : HttpConnection} (hsent : h.Sent) {o : ReadEvent}
    (hwritable : ∀ msg, o.written msg ≠ .error .EPIPE ∧ o.written msg ≠ .error .ECONNRESET)
    (call : ServerCall) : (h.perform o call).Sent := by
  rw [Sent] at hsent
  cases call with
  | httpCallback req => exact hsent
  | send msg =>
      by_cases hconn : h.conn.state_ = .kConnected
      · simp [Sent, HttpConnection.perform, TcpConnection.send, TcpConnection.connected, hconn,
          TcpConnection.stream_sendInLoop _ _ _ (hwritable msg), hsent]
      · simp [Sent, HttpConnection.perform, TcpConnection.send, TcpConnection.connected, hconn,
          hsent]
  | shutdown =>
      simp only [Sent, HttpConnection.perform, TcpConnection.shutdown]
      split
      · rw [TcpConnection.stream_shutdownInLoop]
        exact hsent
      · exact hsent

theorem Sent.foldl_perform {o : ReadEvent}
    (hwritable : ∀ msg, o.written msg ≠ .error .EPIPE ∧ o.written msg ≠ .error .ECONNRESET)
    (calls : List ServerCall) {h : HttpConnection} (hsent : h.Sent) :
    (calls.foldl (HttpConnection.perform o) h).Sent := by
  induction calls generalizing h with
  | nil => exact hsent
  | cons call calls ih => exact ih (hsent.perform hwritable call)

theorem Sent.step {h h' : HttpConnection} (hsent : h.Sent) {e : HttpEvent} (he : e.Writable)
    (hstep : h.step e = some h') : h'.Sent := by
  cases e with
  | handleWrite r =>
      obtain rfl := Option.some.inj hstep
      rw [Sent, TcpConnection.stream_handleWrite]
      exact hsent
  | handleClose =>
      obtain rfl := Option.some.inj hstep
      exact hsent
  | connectDestroyed =>
      obtain rfl := Option.some.inj hstep
      simp only [Sent, TcpConnection.connectDestroyed]
      split
      · exact hsent
      · exact hsent
  | handleRead o =>
      cases hread : o.received with
      | error e =>
          simp only [HttpConnection.step, handleRead, hread, Buffer.readFd_error] at hstep
          obtain rfl := Option.some.inj hstep
          exact hsent
      | ok data =>
          rw [HttpConnection.step, handleRead_ok h hread] at hstep
          split at hstep
          · obtain ⟨⟨ctx, buf, calls⟩, -, rfl⟩ := Option.map_eq_some_iff.mp hstep
            exact Sent.foldl_perform he calls hsent
          · obtain rfl := Option.some.inj hstep
            exact hsent

/-- While the peer is there, what is accepted is written or waits to be written. -/
theorem sent_of_run (address fd : ℕ) {es : List HttpEvent} (hes : ∀ e ∈ es, e.Writable) :
    ∃ h, run address fd es = some h ∧ h.Sent := by
  induction es using List.reverseRecOn with
  | nil => exact ⟨_, rfl, sent_new address fd⟩
  | append_singleton es e ih =>
      obtain ⟨h, hrun, hsent⟩ := ih (fun e' he' => hes e' (by simp [he']))
      obtain ⟨h₀, -, -, -, hrun₀, hctx, -⟩ := run_orderly address fd es
      obtain rfl : h₀ = h := Option.some.inj (hrun₀.symm.trans hrun)
      obtain ⟨h', a, hstep, -⟩ := step_spec hctx e
      refine ⟨h', ?_, hsent.step (hes e (by simp)) hstep⟩
      rw [run_snoc, hrun, Option.bind_some, hstep]

end HttpConnection

end CkServer
