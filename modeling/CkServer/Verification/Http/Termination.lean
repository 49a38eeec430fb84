import CkServer.Verification.Http.Parser

/-! # The end of the parser's loop

In a state in which `parseRequest` reads lines, a turn of its loop ends the loop or takes a line
from the buffer. A context that has a whole request is in no such state until it is reset. -/

namespace CkServer

namespace HttpContext

open Lines

/-! ## Uses of a context -/

inductive ContextUse where
  | parseRequest (buf : Buffer) (receiveTime : Timestamp)
  | reset

/-- The context after a call, or `none` where the call never returns. -/
def use (ctx : HttpContext) : ContextUse → Option HttpContext
  | .parseRequest buf receiveTime => (ctx.parseRequest buf receiveTime).map fun r => r.2.1
  | .reset => some ctx.reset

def uses (ctx : HttpContext) (calls : List ContextUse) : Option HttpContext :=
  calls.foldlM use ctx

/-- The loop ends after the given number of turns, and each of them but the last takes a CRLF at
least from the buffer. -/
inductive LoopEnds (receiveTime : Timestamp) : ParseLoop → ℕ → Prop where
  | stop {s : ParseLoop} : (parseTurn receiveTime s).hasMore = false → LoopEnds receiveTime s 1
  | next {s : ParseLoop} {turns : ℕ} : (parseTurn receiveTime s).hasMore = true →
      (parseTurn receiveTime s).buf.readableBytes + 2 ≤ s.buf.readableBytes →
      LoopEnds receiveTime (parseTurn receiveTime s) turns → LoopEnds receiveTime s (turns + 1)

/-- `parseRequest` returns. -/
def Returns (ctx : HttpContext) (buf : Buffer) (receiveTime : Timestamp) : Prop :=
  ∃ turns, LoopEnds receiveTime ⟨true, true, ctx, buf⟩ turns

/-! ## The states of the loop -/

theorem loopEnds_of_reading (t : Timestamp) (size : ℕ) :
    ∀ (ctx : HttpContext) (buf : Buffer), Reading ctx → buf.readableBytes ≤ size →
      ∃ turns, LoopEnds t ⟨true, true, ctx, buf⟩ turns := by
  induction size using Nat.strong_induction_on with
  | _ size ih =>
      intro ctx buf hctx hsize
      rcases parseTurn_spec t ctx buf hctx with
        ⟨line, ctx', buf', hturn, hreading, hsplit, -⟩ | ⟨s, hturn, hstop, -⟩
      · have hless : buf'.readableBytes + 2 ≤ buf.readableBytes := by
          have hline := congrArg List.length (splitLine?_eq_some_iff.mp hsplit).2
          simp only [List.length_append, Buffer.length_readable, crlf, List.length_cons,
            List.length_nil] at hline
          omega
        obtain ⟨turns, hends⟩ := ih buf'.readableBytes (by omega) ctx' buf' hreading (Nat.le_refl _)
        exact ⟨turns + 1, .next (by rw [hturn]) (by rw [hturn]; exact hless)
          (by rw [hturn]; exact hends)⟩
      · exact ⟨1, .stop (by rw [hturn]; exact hstop)⟩

/-- With a whole request in the context a turn changes nothing. -/
theorem not_loopEnds_of_gotAll {t : Timestamp} {s : ParseLoop} {turns : ℕ}
    (hends : LoopEnds t s turns) (hmore : s.hasMore = true) : s.context.state_ ≠ .kGotAll := by
  intro hgot
  have hsame : parseTurn t s = s := by simp only [parseTurn, hgot]
  induction hends with
  | stop hstop =>
      rw [hsame, hmore] at hstop
      cases hstop
  | next _ hless _ _ =>
      rw [hsame] at hless
      omega

theorem parseLoop_of_gotAll (t : Timestamp) (fuel : ℕ) {s : ParseLoop}
    (hgot : s.context.state_ = .kGotAll) (hmore : s.hasMore = true) :
    parseLoop t fuel s = none := by
  have hsame : parseTurn t s = s := by simp only [parseTurn, hgot]
  induction fuel with
  | zero => rw [parseLoop, if_pos hmore]
  | succ fuel ih => rw [parseLoop, if_pos hmore, hsame, ih]

theorem parseRequest_of_gotAll {ctx : HttpContext} (hgot : ctx.state_ = .kGotAll) (buf : Buffer)
    (t : Timestamp) : ctx.parseRequest buf t = none := by
  rw [parseRequest, parseLoop_of_gotAll t (s := ⟨true, true, ctx, buf⟩) _ hgot rfl, Option.map_none]

/-- No call leaves a context in `kExpectBody`. -/
def Settled (ctx : HttpContext) : Prop := Reading ctx ∨ ctx.state_ = .kGotAll

theorem Settled.use {ctx ctx' : HttpContext} (h : Settled ctx) {call : ContextUse}
    (huse : ctx.use call = some ctx') : Settled ctx' := by
  cases call with
  | reset =>
      obtain rfl := Option.some.inj huse
      exact .inl (.inl rfl)
  | parseRequest buf t =>
      rcases h with hreading | hgot
      · obtain ⟨ok, ctx₁, buf₁, hparse, hfollows⟩ := parseRequest_spec ctx buf t hreading
        have hread := state_read ctx.eraseTime buf.readable hreading
        obtain rfl : ctx₁ = ctx' := by simpa [HttpContext.use, hparse] using huse
        have hstate : ctx₁.state_ = (parser.read ctx.eraseTime buf.readable).state.state_ := by
          rw [← hfollows.context, eraseTime_state_]
        by_cases hstop : (parser.read ctx.eraseTime buf.readable).stop = .finished
        · exact .inr (hstate.trans (hread.1 hstop))
        · rcases hread.2 hstop with hs | hs
          · exact .inl (.inl (hstate.trans hs))
          · exact .inl (.inr (hstate.trans hs))
      · simp [HttpContext.use, parseRequest_of_gotAll hgot] at huse

theorem settled_of_uses {calls : List ContextUse} :
    ∀ {ctx ctx' : HttpContext}, Settled ctx → ctx.uses calls = some ctx' → Settled ctx' := by
  induction calls with
  | nil =>
      intro ctx ctx' h huses
      obtain rfl := Option.some.inj huses
      exact h
  | cons call calls ih =>
      intro ctx ctx' h huses
      rw [uses, List.foldlM_cons] at huses
      obtain ⟨ctx₁, huse, hrest⟩ := Option.bind_eq_some_iff.mp huses
      exact ih (h.use huse) hrest

theorem Settled.returns_iff {ctx : HttpContext} (h : Settled ctx) (buf : Buffer) (t : Timestamp) :
    ctx.Returns buf t ↔ ctx.gotAll = false := by
  have hgotAll : ctx.gotAll = false ↔ ctx.state_ ≠ .kGotAll := by simp [gotAll]
  rw [hgotAll]
  constructor
  · rintro ⟨turns, hends⟩
    exact not_loopEnds_of_gotAll hends rfl
  · intro hgot
    exact loopEnds_of_reading t _ ctx buf (h.resolve_right hgot) (Nat.le_refl _)

/-- Where the loop ends, the turns that `parseRequest` has as its fuel are enough. -/
theorem Settled.parseRequest_isSome_iff {ctx : HttpContext} (h : Settled ctx) (buf : Buffer)
    (t : Timestamp) : (ctx.parseRequest buf t).isSome = true ↔ ctx.Returns buf t := by
  rw [h.returns_iff]
  rcases h with hreading | hgot
  · obtain ⟨ok, ctx', buf', hparse, -⟩ := parseRequest_spec ctx buf t hreading
    rw [hparse]
    rcases hreading with hs | hs <;> simp [gotAll, hs]
  · simp [parseRequest_of_gotAll hgot, gotAll, hgot]

/-- After any calls that have returned, `parseRequest` returns on any buffer exactly if the context
does not have a whole request. -/
theorem returns_iff_not_gotAll {calls : List ContextUse} {ctx : HttpContext}
    (huses : uses {} calls = some ctx) (buf : Buffer) (t : Timestamp) :
    ctx.Returns buf t ↔ ctx.gotAll = false :=
  (settled_of_uses (.inl (.inl rfl)) huses).returns_iff buf t

/-- A request line without its CRLF, and then a reset. -/
def startedAndReset : List ContextUse :=
  [.parseRequest
      ((Buffer.new kInitialSize kInitialSize_le).append (Text.ascii "GET / HTTP/1.1")) {},
    .reset]

theorem returns_startedAndReset :
    ∃ ctx, uses {} startedAndReset = some ctx ∧
      ctx.Returns (Buffer.new kInitialSize kInitialSize_le) {} := by
  obtain ⟨ok, ctx, buf, hparse, -⟩ := parseRequest_spec {}
    ((Buffer.new kInitialSize kInitialSize_le).append (Text.ascii "GET / HTTP/1.1")) {} (.inl rfl)
  have huses : uses {} startedAndReset = some ctx.reset := by
    simp [uses, startedAndReset, use, hparse]
  exact ⟨_, huses, (returns_iff_not_gotAll huses _ _).mpr rfl⟩

/-- A whole request, which the next call finds in the context. -/
def wholeRequest : List ContextUse :=
  [.parseRequest
    ((Buffer.new kInitialSize kInitialSize_le).append (Text.ascii "GET / HTTP/1.1\r\n\r\n")) {}]

theorem not_returns_wholeRequest :
    ∃ ctx, uses {} wholeRequest = some ctx ∧
      ¬ ctx.Returns (Buffer.new kInitialSize kInitialSize_le) {} := by
  have hgot : (uses {} wholeRequest).map gotAll = some true := by decide +kernel
  obtain ⟨ctx, huses, hgot⟩ := Option.map_eq_some_iff.mp hgot
  refine ⟨ctx, huses, ?_⟩
  rintro ⟨turns, hends⟩
  exact not_loopEnds_of_gotAll hends rfl (by simpa [gotAll] using hgot)

end HttpContext

end CkServer
