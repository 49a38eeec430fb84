import CkServer.Library.Resumable
import CkServer.Model.HttpContext
import CkServer.Verification.Buffer.Readable

/-! # The parser as a resumable reader

`parseRequest` reads lines until one is missing, ends the headers or is refused. Up to the
receive time it is the reader `parser`, so the laws of resumable readers hold for it. -/

namespace CkServer

open Lines

/-! ## Requests without their receive time -/

def HttpRequest.eraseTime (req : HttpRequest) : HttpRequest := { req with receiveTime_ := {} }

namespace HttpContext

def eraseTime (ctx : HttpContext) : HttpContext := { ctx with request_ := ctx.request_.eraseTime }

@[simp] theorem eraseTime_new : eraseTime {} = {} := rfl

@[simp] theorem eraseTime_reset (ctx : HttpContext) : ctx.reset.eraseTime = {} := rfl

@[simp] theorem eraseTime_state_ (ctx : HttpContext) : ctx.eraseTime.state_ = ctx.state_ := rfl

theorem setMethod_eraseTime (req : HttpRequest) (m : List UInt8) :
    req.eraseTime.setMethod m = ((req.setMethod m).1, (req.setMethod m).2.eraseTime) := rfl

theorem processTarget_eraseTime (req : HttpRequest) (target : List UInt8) :
    processTarget req.eraseTime target = (processTarget req target).eraseTime := by
  simp only [processTarget]
  split <;> rfl

theorem processVersion_eraseTime (req : HttpRequest) (version : List UInt8) :
    processVersion req.eraseTime version =
      ((processVersion req version).1, (processVersion req version).2.eraseTime) := by
  simp only [processVersion]
  split_ifs <;> rfl

theorem processRequestLine_eraseTime (req : HttpRequest) (line : List UInt8) :
    processRequestLine req.eraseTime line =
      ((processRequestLine req line).1, (processRequestLine req line).2.eraseTime) := by
  simp only [processRequestLine, setMethod_eraseTime, processTarget_eraseTime,
    processVersion_eraseTime]
  split
  · split
    · split <;> rfl
    · rfl
  · rfl

theorem processVersion_fst (req req' : HttpRequest) (version : List UInt8) :
    (processVersion req version).1 = (processVersion req' version).1 := by
  simp only [processVersion]
  split_ifs <;> rfl

/-- Whether a request line is accepted does not depend on the request it is stored in. -/
theorem processRequestLine_fst (req req' : HttpRequest) (line : List UInt8) :
    (processRequestLine req line).1 = (processRequestLine req' line).1 := by
  have hmethod (m : List UInt8) : (req.setMethod m).1 = (req'.setMethod m).1 := rfl
  simp only [processRequestLine, hmethod]
  split
  · split
    · split
      · exact processVersion_fst _ _ _
      · rfl
    · rfl
  · rfl

theorem eraseTime_addHeader (req : HttpRequest) (line : List UInt8) (colon : ℕ) :
    req.eraseTime.addHeader line colon = (req.addHeader line colon).eraseTime := rfl

/-! ## The reader -/

/-- What the parser makes of a line, the receive time aside. -/
def readLine (ctx : HttpContext) (line : List UInt8) : Verdict HttpContext :=
  match ctx.state_ with
  | .kExpectRequestLine =>
      let (ok, req) := processRequestLine ctx.request_ line
      if ok then .next ⟨.kExpectHeaders, req⟩ else .reject ⟨.kExpectRequestLine, req⟩
  | .kExpectHeaders =>
      let colon := line.idxOf 58
      if colon ≠ line.length then
        .next ⟨.kExpectHeaders, ctx.request_.addHeader line colon⟩
      else
        .finish ⟨.kGotAll, ctx.request_⟩
  | .kExpectBody => .reject ctx
  | .kGotAll => .reject ctx

theorem readLine_reject_again {ctx ctx' : HttpContext} {line : List UInt8}
    (h : readLine ctx line = .reject ctx') : ∃ ctx'', readLine ctx' line = .reject ctx'' := by
  cases hs : ctx.state_ with
  | kExpectRequestLine =>
      cases hok : (processRequestLine ctx.request_ line).1 with
      | true => simp [readLine, hs, hok] at h
      | false =>
          have hctx' : ⟨.kExpectRequestLine, (processRequestLine ctx.request_ line).2⟩ = ctx' := by
            simpa [readLine, hs, hok] using h
          have hagain := (processRequestLine_fst ctx'.request_ ctx.request_ line).trans hok
          refine ⟨⟨.kExpectRequestLine, (processRequestLine ctx'.request_ line).2⟩, ?_⟩
          simp [readLine, ← hctx'] at hagain ⊢
          simp [hagain]
  | kExpectHeaders =>
      simp only [readLine, hs] at h
      split at h <;> cases h
  | kExpectBody =>
      obtain rfl : ctx = ctx' := by simpa [readLine, hs] using h
      exact ⟨ctx, h⟩
  | kGotAll =>
      obtain rfl : ctx = ctx' := by simpa [readLine, hs] using h
      exact ⟨ctx, h⟩

def parser : Resumable HttpContext UInt8 where
  split := splitLine?
  step := readLine
  length_of_split := length_lt_of_splitLine?
  split_more := splitLine?_more
  reject_again := readLine_reject_again

/-- The states in which the loop of `parseRequest` reads lines. -/
def Reading (ctx : HttpContext) : Prop :=
  ctx.state_ = .kExpectRequestLine ∨ ctx.state_ = .kExpectHeaders

/-- A reading that begins in a reading state ends in `kGotAll` exactly when it has finished,
and in a reading state otherwise. -/
theorem state_read (ctx : HttpContext) (xs : List UInt8) :
    Reading ctx →
      ((parser.read ctx xs).stop = .finished → (parser.read ctx xs).state.state_ = .kGotAll) ∧
      ((parser.read ctx xs).stop ≠ .finished → Reading (parser.read ctx xs).state) := by
  induction ctx, xs using parser.read_induction with
  | starve ctx xs hs =>
      intro hctx
      rw [parser.read_of_none hs]
      exact ⟨fun h => by simp at h, fun _ => hctx⟩
  | next ctx xs line rest ctx' hs hv ih =>
      intro hctx
      rw [parser.read_of_next hs hv]
      apply ih
      rcases hctx with hctx | hctx
      · simp only [parser, readLine, hctx] at hv
        split at hv
        · cases hv
          exact .inr rfl
        · cases hv
      · simp only [parser, readLine, hctx] at hv
        split at hv
        · cases hv
          exact .inr rfl
        · cases hv
  | finish ctx xs line rest ctx' hs hv =>
      intro hctx
      rw [parser.read_of_finish hs hv]
      refine ⟨fun _ => ?_, fun h => absurd rfl h⟩
      rcases hctx with hctx | hctx
      · simp only [parser, readLine, hctx] at hv
        split at hv <;> cases hv
      · simp only [parser, readLine, hctx] at hv
        split at hv
        · cases hv
        · cases hv
          rfl
  | reject ctx xs line rest ctx' hs hv =>
      intro hctx
      rw [parser.read_of_reject hs hv]
      refine ⟨fun h => by simp at h, fun _ => ?_⟩
      rcases hctx with hctx | hctx
      · simp only [parser, readLine, hctx] at hv
        split at hv
        · cases hv
        · cases hv
          exact .inl rfl
      · simp only [parser, readLine, hctx] at hv
        split at hv <;> cases hv

/-! ## The loop follows the reader -/

theorem splitLine?_of_findCRLF {buf : Buffer} {crlf : ℕ} (h : buf.findCRLF = some crlf) :
    splitLine? buf.readable = some (buf.peek crlf, (buf.retrieveUntil (crlf + 2)).readable) := by
  have hle := Search.search?_some_le h
  have hpeek : buf.peek crlf = buf.readable.take crlf := by
    rw [Buffer.readable, Buffer.peek, Buffer.peek, List.take_take]
    rw [Buffer.length_readable] at hle
    rw [Nat.min_eq_left (by omega)]
  rw [splitLine?, show Search.search? Lines.crlf buf.readable = some crlf from h, Option.map_some,
    hpeek, Buffer.readable_retrieveUntil]

theorem splitLine?_of_findCRLF_none {buf : Buffer} (h : buf.findCRLF = none) :
    splitLine? buf.readable = none := by
  rw [splitLine?, show Search.search? Lines.crlf buf.readable = none from h, Option.map_none]

/-- Where the loop stops, it has done what the reader does. -/
structure Follows (o : Resumable.Outcome HttpContext UInt8) (s : ParseLoop) : Prop where
  ok : s.ok = decide (o.stop ≠ .rejected)
  context : s.context.eraseTime = o.state
  rest : s.buf.readable = o.rest

/-- One turn is one line of the reader, or stops as it does. -/
theorem parseTurn_spec (t : Timestamp) (ctx : HttpContext) (buf : Buffer) (hctx : Reading ctx) :
    (∃ line ctx' buf', parseTurn t ⟨true, true, ctx, buf⟩ = ⟨true, true, ctx', buf'⟩ ∧
        Reading ctx' ∧ splitLine? buf.readable = some (line, buf'.readable) ∧
        parser.read ctx.eraseTime buf.readable = parser.read ctx'.eraseTime buf'.readable) ∨
      ∃ s, parseTurn t ⟨true, true, ctx, buf⟩ = s ∧ s.hasMore = false ∧
        Follows (parser.read ctx.eraseTime buf.readable) s := by
  cases hfind : buf.findCRLF with
  | none =>
      have ho := parser.read_of_none (s := ctx.eraseTime) (splitLine?_of_findCRLF_none hfind)
      have hs : parseTurn t ⟨true, true, ctx, buf⟩ = ⟨true, false, ctx, buf⟩ := by
        rcases hctx with hctx | hctx <;> simp [parseTurn, hctx, hfind]
      refine .inr ⟨_, hs, rfl, ?_⟩
      rw [ho]
      exact ⟨rfl, rfl, rfl⟩
  | some crlf =>
      have hsplit := splitLine?_of_findCRLF hfind
      rcases hctx with hctx | hctx
      · have herase := processRequestLine_eraseTime ctx.request_ (buf.peek crlf)
        cases hok : (processRequestLine ctx.request_ (buf.peek crlf)).1 with
        | true =>
            have ho := parser.read_of_next (s := ctx.eraseTime) hsplit
              (t := ⟨.kExpectHeaders,
                (processRequestLine ctx.request_ (buf.peek crlf)).2.eraseTime⟩)
              (by simp [parser, readLine, hctx, eraseTime, herase, hok])
            have hs : parseTurn t ⟨true, true, ctx, buf⟩ = ⟨true, true, ⟨.kExpectHeaders,
                (processRequestLine ctx.request_ (buf.peek crlf)).2.setReceiveTime t⟩,
                buf.retrieveUntil (crlf + 2)⟩ := by
              simp [parseTurn, hctx, hfind, hok]
            exact .inl ⟨_, _, _, hs, .inr rfl, hsplit, ho⟩
        | false =>
            have ho := parser.read_of_reject (s := ctx.eraseTime) hsplit
              (t := ⟨.kExpectRequestLine,
                (processRequestLine ctx.request_ (buf.peek crlf)).2.eraseTime⟩)
              (by simp [parser, readLine, hctx, eraseTime, herase, hok])
            have hs : parseTurn t ⟨true, true, ctx, buf⟩ = ⟨false, false, ⟨.kExpectRequestLine,
                (processRequestLine ctx.request_ (buf.peek crlf)).2⟩, buf⟩ := by
              simp [parseTurn, hctx, hfind, hok]
            refine .inr ⟨_, hs, rfl, ?_⟩
            rw [ho]
            exact ⟨rfl, rfl, rfl⟩
      · by_cases hcolon : (buf.peek crlf).idxOf 58 = (buf.peek crlf).length
        · have ho := parser.read_of_finish (s := ctx.eraseTime) hsplit
            (t := ⟨.kGotAll, ctx.eraseTime.request_⟩)
            (by simp [parser, readLine, hctx, hcolon])
          have hs : parseTurn t ⟨true, true, ctx, buf⟩ = ⟨true, false,
              ⟨.kGotAll, ctx.request_⟩, buf.retrieveUntil (crlf + 2)⟩ := by
            simp [parseTurn, hctx, hfind, hcolon]
          refine .inr ⟨_, hs, rfl, ?_⟩
          rw [ho]
          exact ⟨rfl, rfl, rfl⟩
        · have ho := parser.read_of_next (s := ctx.eraseTime) hsplit
            (t := ⟨.kExpectHeaders,
              (ctx.request_.addHeader (buf.peek crlf) ((buf.peek crlf).idxOf 58)).eraseTime⟩)
            (by simp [parser, readLine, hctx, hcolon, eraseTime, eraseTime_addHeader])
          have hs : parseTurn t ⟨true, true, ctx, buf⟩ = ⟨true, true, ⟨.kExpectHeaders,
              ctx.request_.addHeader (buf.peek crlf) ((buf.peek crlf).idxOf 58)⟩,
              buf.retrieveUntil (crlf + 2)⟩ := by
            simp [parseTurn, hctx, hfind, hcolon]
          exact .inl ⟨_, _, _, hs, .inr rfl, hsplit, ho⟩

theorem parseLoop_spec (t : Timestamp) (fuel : ℕ) :
    ∀ (ctx : HttpContext) (buf : Buffer), Reading ctx → buf.readableBytes < fuel →
      ∃ s, parseLoop t fuel ⟨true, true, ctx, buf⟩ = some s ∧
        Follows (parser.read ctx.eraseTime buf.readable) s := by
  induction fuel with
  | zero =>
      intro ctx buf _ hfuel
      omega
  | succ fuel ih =>
      intro ctx buf hctx hfuel
      rw [parseLoop, if_pos rfl]
      rcases parseTurn_spec t ctx buf hctx with
        ⟨line, ctx', buf', hs, hreading, hsplit, ho⟩ | ⟨s, hs, hstop, hfollows⟩
      · have hlt : buf'.readableBytes < buf.readableBytes := by
          simpa only [Buffer.length_readable] using length_lt_of_splitLine? hsplit
        rw [hs, ho]
        exact ih ctx' buf' hreading (by omega)
      · refine ⟨s, ?_, hfollows⟩
        rw [hs]
        cases fuel <;> simp [parseLoop, hstop]

/-- In a reading state `parseRequest` returns, and with what the reader returns. -/
theorem parseRequest_spec (ctx : HttpContext) (buf : Buffer) (t : Timestamp) (hctx : Reading ctx) :
    ∃ ok ctx' buf', ctx.parseRequest buf t = some (ok, ctx', buf') ∧
      Follows (parser.read ctx.eraseTime buf.readable) ⟨ok, false, ctx', buf'⟩ := by
  obtain ⟨s, hs, hfollows⟩ := parseLoop_spec t (buf.readableBytes + 1) ctx buf hctx (by omega)
  refine ⟨s.ok, s.context, s.buf, ?_, hfollows.ok, hfollows.context, hfollows.rest⟩
  rw [parseRequest, hs]
  rfl

theorem gotAll_iff_of_follows {ctx ctx' : HttpContext} {xs : List UInt8} {ok more : Bool}
    {buf' : Buffer} (hctx : Reading ctx)
    (h : Follows (parser.read ctx.eraseTime xs) ⟨ok, more, ctx', buf'⟩) :
    ctx'.gotAll = true ↔ (parser.read ctx.eraseTime xs).stop = .finished := by
  have hstate := state_read ctx.eraseTime xs hctx
  rw [← h.context] at hstate
  rw [gotAll, decide_eq_true_eq]
  constructor
  · intro hgot
    by_contra hstop
    rcases hstate.2 hstop with hs | hs <;> rw [eraseTime_state_, hgot] at hs <;> cases hs
  · exact hstate.1

end HttpContext

end CkServer
