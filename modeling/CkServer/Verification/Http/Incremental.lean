import CkServer.Model.HttpServer
import CkServer.Verification.Http.Parser

/-! # Incremental parsing

A connection is a session of `parser`: after any chunks it has dispatched an initial part of
the requests of the whole stream, and holds what is needed for the others. -/

namespace CkServer

open HttpContext

/-! ## The reference -/

/-- The requests of a stream, parsed one by one, each with a new context, up to the first
that is incomplete or malformed. Each request takes bytes from the buffer, so their number
is fuel enough. -/
def parseAll : ℕ → Buffer → List HttpRequest
  | 0, _ => []
  | fuel + 1, buf =>
      match HttpContext.parseRequest {} buf {} with
      | some (_, ctx, buf) => if ctx.gotAll then ctx.request_ :: parseAll fuel buf else []
      | none => []

def referenceRequests (stream : List UInt8) : List HttpRequest :=
  parseAll (stream.length + 1) ((Buffer.new kInitialSize kInitialSize_le).append stream)

/-- The records of the reader: the requests of a stream without their receive times. -/
def requests (stream : List UInt8) : List HttpRequest :=
  parser.records {} HttpContext.request_ {} stream

theorem parseAll_eq_records (fuel : ℕ) :
    ∀ buf : Buffer, buf.readableBytes < fuel →
      (parseAll fuel buf).map HttpRequest.eraseTime = requests buf.readable := by
  induction fuel with
  | zero =>
      intro buf hfuel
      omega
  | succ fuel ih =>
      intro buf hfuel
      obtain ⟨ok, ctx, buf', hparse, hfollows⟩ := parseRequest_spec {} buf {} (.inl rfl)
      have hgot := gotAll_iff_of_follows (.inl rfl) hfollows
      rw [eraseTime_new] at hgot hfollows
      simp only [parseAll, hparse, requests]
      by_cases hstop : (parser.read {} buf.readable).stop = .finished
      · have hlt := parser.length_rest_of_finished hstop
        rw [← hfollows.rest, Buffer.length_readable, Buffer.length_readable] at hlt
        have hfuel' : buf'.readableBytes < fuel := by
          change buf'.readableBytes < buf.readableBytes at hlt
          omega
        rw [if_pos (hgot.mpr hstop), List.map_cons, ih buf' hfuel',
          parser.records_of_finished hstop, ← hfollows.context, ← hfollows.rest]
        rfl
      · rw [if_neg (mt hgot.mp hstop), parser.records_of_not_finished hstop, List.map_nil]

theorem referenceRequests_eraseTime (stream : List UInt8) :
    (referenceRequests stream).map HttpRequest.eraseTime = requests stream := by
  rw [referenceRequests, parseAll_eq_records]
  · simp
  · rw [← Buffer.length_readable]
    simp

/-! ## Sessions -/

namespace HttpSession

/-- The abstract session of a connection after the given calls. -/
abbrev abstract (ds : List Delivery) : Resumable.Session HttpContext UInt8 HttpRequest :=
  parser.session {} HttpContext.request_ (ds.map Delivery.data)

/-- A connection and the abstract session that it implements. -/
structure Implements (s : HttpSession)
    (c : Resumable.Session HttpContext UInt8 HttpRequest) : Prop where
  context : s.context_.eraseTime = c.state
  reading : Reading s.context_
  pending : s.inputBuffer_.readable = c.pending
  dispatched : s.dispatched.map HttpRequest.eraseTime = c.emitted

theorem implements_new : Implements {} (abstract []) :=
  ⟨rfl, .inl rfl, Buffer.readable_new _ (by decide), rfl⟩

/-- Answering a request calls the user's callback once, with that request. -/
theorem filterMap_onRequest (server : HttpServer) (req : HttpRequest) :
    (server.onRequest req).filterMap ServerCall.request? = [req] := by
  simp only [HttpServer.onRequest]
  split <;> simp [ServerCall.request?]

theorem filterMap_refused (ok : Bool) :
    (if ok then [] else HttpServer.refusal).filterMap ServerCall.request? = [] := by
  cases ok <;> simp [HttpServer.refusal, ServerCall.request?]

/-- `onMessage` returns, and does to the connection what a delivery does to the session. -/
theorem deliver_implements {s : HttpSession} {c : Resumable.Session HttpContext UInt8 HttpRequest}
    (h : Implements s c) (d : Delivery) :
    ∃ s', s.deliver d = some s' ∧
      Implements s' (parser.deliver {} HttpContext.request_ c d.data) := by
  obtain ⟨ok, ctx, buf, hparse, hfollows⟩ :=
    parseRequest_spec s.context_ (s.inputBuffer_.append d.data) d.receiveTime h.reading
  have hgot := gotAll_iff_of_follows h.reading hfollows
  have hstate := state_read s.context_.eraseTime (s.inputBuffer_.append d.data).readable h.reading
  rw [h.context, Buffer.readable_append, h.pending] at hgot hfollows hstate
  by_cases hstop : (parser.read c.state (c.pending ++ d.data)).stop = .finished
  · have hs : s.deliver d = some ⟨ctx.reset, buf, s.calls ++
        ((if ok then [] else HttpServer.refusal) ++ d.server.onRequest ctx.request_)⟩ := by
      simp [deliver, HttpServer.onMessage, hparse, hgot.mpr hstop]
    have hreq : ctx.request_.eraseTime =
        (parser.read c.state (c.pending ++ d.data)).state.request_ := by
      rw [← hfollows.context]
      rfl
    have hdispatched := h.dispatched
    refine ⟨_, hs, ?_, .inl rfl, ?_, ?_⟩
    · simp [Resumable.deliver, hstop]
    · simpa [Resumable.deliver, hstop] using hfollows.rest
    · simp only [HttpSession.dispatched] at hdispatched ⊢
      simp [List.filterMap_append, filterMap_refused, filterMap_onRequest, hdispatched,
        Resumable.deliver, hstop, hreq]
  · have hnot : ctx.gotAll = false := by simpa using mt hgot.mp hstop
    have hs : s.deliver d = some ⟨ctx, buf, s.calls ++
        (if ok then [] else HttpServer.refusal)⟩ := by
      simp [deliver, HttpServer.onMessage, hparse, hnot]
    have hreading := hstate.2 hstop
    rw [← hfollows.context] at hreading
    have hdispatched := h.dispatched
    refine ⟨_, hs, ?_, hreading, ?_, ?_⟩
    · simpa [Resumable.deliver, hstop] using hfollows.context
    · simpa [Resumable.deliver, hstop] using hfollows.rest
    · simp only [HttpSession.dispatched] at hdispatched ⊢
      simp [List.filterMap_append, filterMap_refused, hdispatched, Resumable.deliver, hstop]

theorem run_snoc (ds : List Delivery) (d : Delivery) :
    run (ds ++ [d]) = (run ds).bind fun s => s.deliver d := by
  simp [run]

/-- Every run of a connection returns and implements the session over its chunks. -/
theorem run_implements (ds : List Delivery) :
    ∃ s, run ds = some s ∧ Implements s (abstract ds) := by
  induction ds using List.reverseRecOn with
  | nil => exact ⟨{}, rfl, implements_new⟩
  | append_singleton ds d ih =>
      obtain ⟨s, hrun, himp⟩ := ih
      obtain ⟨s', hdeliver, himp'⟩ := deliver_implements himp d
      refine ⟨s', by rw [run_snoc, hrun, Option.bind_some, hdeliver], ?_⟩
      rw [abstract, List.map_append, List.map_singleton, Resumable.session_snoc]
      exact himp'

theorem implements_of_run {ds : List Delivery} {s : HttpSession} (h : run ds = some s) :
    Implements s (abstract ds) := by
  obtain ⟨s', hrun, himp⟩ := run_implements ds
  rw [h] at hrun
  cases hrun
  exact himp

theorem received_eq_flatten (ds : List Delivery) :
    received ds = (ds.map Delivery.data).flatten := by
  rw [received, List.flatMap_def]

/-- The input of the connection begins with a request line that the parser refuses. -/
def Malformed (s : HttpSession) : Prop :=
  ∃ t ctx buf, s.context_.parseRequest s.inputBuffer_ t = some (false, ctx, buf)

theorem stop_of_malformed {s : HttpSession} {c : Resumable.Session HttpContext UInt8 HttpRequest}
    (h : Implements s c) (hbad : s.Malformed) :
    (parser.read c.state c.pending).stop = .rejected := by
  obtain ⟨t, ctx, buf, hparse⟩ := hbad
  obtain ⟨ok, ctx', buf', hparse', hfollows⟩ :=
    parseRequest_spec s.context_ s.inputBuffer_ t h.reading
  rw [hparse] at hparse'
  obtain ⟨rfl, rfl, rfl⟩ : false = ok ∧ ctx = ctx' ∧ buf = buf' := by simpa using hparse'
  have hok := hfollows.ok
  rw [h.context, h.pending] at hok
  simpa using hok

/-- In every chunking of every stream the requests dispatched are an initial part of those
of the reference, and a malformed request line is the end of them. -/
theorem dispatched_prefix_reference (ds : List Delivery) :
    ∃ s, run ds = some s ∧
      s.dispatched.map HttpRequest.eraseTime <+:
        (referenceRequests (received ds)).map HttpRequest.eraseTime ∧
      (s.Malformed → ∀ more, ∃ s', run (ds ++ more) = some s' ∧
        s'.dispatched.map HttpRequest.eraseTime = s.dispatched.map HttpRequest.eraseTime) := by
  obtain ⟨s, hrun, himp⟩ := run_implements ds
  refine ⟨s, hrun, ?_, ?_⟩
  · rw [himp.dispatched, referenceRequests_eraseTime, received_eq_flatten]
    exact parser.emitted_prefix {} HttpContext.request_ _
  · intro hbad more
    obtain ⟨s', hrun', himp'⟩ := run_implements (ds ++ more)
    refine ⟨s', hrun', ?_⟩
    have hstop := stop_of_malformed himp hbad
    rw [himp'.dispatched, himp.dispatched, abstract, List.map_append]
    exact (parser.emitted_session_of_rejected {} HttpContext.request_ hstop _).1

end HttpSession

end CkServer
