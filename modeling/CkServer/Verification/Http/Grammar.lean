import CkServer.Verification.Http.RequestLine

/-! # The grammar of requests

A request is a request line, header lines with a colon, and an empty line, each ended by
CRLF. The parser accepts every request and consumes it exactly. It also ends the headers at
a line without a colon that is not empty, which no request contains. -/

namespace CkServer

open Text Lines HttpContext

/-- A header line as the grammar has it. -/
def IsHeaderLine (line : List UInt8) : Prop := 58 ∈ line ∧ Unbroken line

instance (line : List UInt8) : Decidable (IsHeaderLine line) :=
  inferInstanceAs (Decidable (58 ∈ line ∧ Unbroken line))

/-- The lines of a text, each ended by CRLF. -/
def terminated (lines : List (List UInt8)) : List UInt8 := lines.flatMap (· ++ crlf)

structure RequestText where
  line : RequestLine
  headers : List (List UInt8)
  line_unbroken : Unbroken line.render
  headers_valid : ∀ header ∈ headers, IsHeaderLine header

/-- A header line stored in a request. -/
def storeHeader (req : HttpRequest) (line : List UInt8) : HttpRequest :=
  req.addHeader line (line.idxOf 58)

namespace RequestText

def render (r : RequestText) : List UInt8 :=
  r.line.render ++ crlf ++ (terminated r.headers ++ ([] ++ crlf))

/-- The request that the text stands for. -/
def request (r : RequestText) : HttpRequest := r.headers.foldl storeHeader (r.line.store {})

theorem render_ne_nil (r : RequestText) : r.render ≠ [] := by simp [render, crlf]

end RequestText

/-! ## Reading the parts of a request -/

theorem read_requestLine {line : RequestLine} (hline : Unbroken line.render) (req : HttpRequest)
    (xs : List UInt8) :
    parser.read ⟨.kExpectRequestLine, req⟩ (line.render ++ crlf ++ xs) =
      parser.read ⟨.kExpectHeaders, line.store req⟩ xs :=
  parser.read_of_next (splitLine?_append hline xs)
    (by simp [parser, readLine, processRequestLine_render])

theorem read_header {line : List UInt8} (hline : IsHeaderLine line) (req : HttpRequest)
    (xs : List UInt8) :
    parser.read ⟨.kExpectHeaders, req⟩ (line ++ crlf ++ xs) =
      parser.read ⟨.kExpectHeaders, storeHeader req line⟩ xs := by
  have hcolon : line.idxOf 58 ≠ line.length := (List.idxOf_lt_length_of_mem hline.1).ne
  exact parser.read_of_next (splitLine?_append hline.2 xs)
    (by simp [parser, readLine, hcolon, storeHeader])

theorem read_headers {lines : List (List UInt8)} (hlines : ∀ line ∈ lines, IsHeaderLine line)
    (req : HttpRequest) (xs : List UInt8) :
    parser.read ⟨.kExpectHeaders, req⟩ (terminated lines ++ xs) =
      parser.read ⟨.kExpectHeaders, lines.foldl storeHeader req⟩ xs := by
  induction lines generalizing req with
  | nil => rfl
  | cons line lines ih =>
      rw [terminated, List.flatMap_cons, List.append_assoc, read_header (hlines line (by simp)),
        List.foldl_cons]
      exact ih (fun l hl => hlines l (by simp [hl])) _

/-- Any line without a colon ends the headers. -/
theorem read_last {line : List UInt8} (hcolon : 58 ∉ line) (hline : Unbroken line)
    (req : HttpRequest) (xs : List UInt8) :
    parser.read ⟨.kExpectHeaders, req⟩ (line ++ crlf ++ xs) = ⟨.finished, ⟨.kGotAll, req⟩, xs⟩ :=
  parser.read_of_finish (splitLine?_append hline xs)
    (by simp [parser, readLine, List.idxOf_eq_length hcolon])

/-- A request is read to its end, whatever follows it. -/
theorem read_render (r : RequestText) (xs : List UInt8) :
    parser.read {} (r.render ++ xs) = ⟨.finished, ⟨.kGotAll, r.request⟩, xs⟩ := by
  rw [RequestText.render, List.append_assoc, List.append_assoc (terminated r.headers),
    read_requestLine r.line_unbroken, read_headers r.headers_valid,
    read_last (by simp) unbroken_nil]
  rfl

/-- A request that is not yet whole leaves the parser waiting. -/
theorem starved_of_lt {r : RequestText} {bs : List UInt8} (hpre : bs <+: r.render)
    (hlt : bs.length < r.render.length) : (parser.read {} bs).stop = .starved := by
  by_contra hstop
  obtain ⟨more, hmore⟩ := hpre
  have hwhole := read_render r []
  rw [List.append_nil, ← hmore, parser.read_more_of_stopped {} bs more hstop] at hwhole
  have hrest : (parser.read {} bs).rest ++ more = [] := congrArg Resumable.Outcome.rest hwhole
  obtain ⟨-, rfl⟩ := List.append_eq_nil_iff.mp hrest
  rw [List.append_nil] at hmore
  rw [hmore] at hlt
  exact lt_irrefl _ hlt

/-! ## What was read -/

/-- The headers end at the first line without a colon. -/
theorem headers_of_finished (ctx : HttpContext) (xs : List UInt8) :
    ctx.state_ = .kExpectHeaders → (parser.read ctx xs).stop = .finished →
      ∃ lines last, (∀ line ∈ lines, IsHeaderLine line) ∧ 58 ∉ last ∧ Unbroken last ∧
        xs = terminated lines ++ (last ++ crlf ++ (parser.read ctx xs).rest) := by
  induction ctx, xs using parser.read_induction with
  | starve ctx xs hs =>
      intro _ hstop
      simp [parser.read_of_none hs] at hstop
  | next ctx xs line rest ctx' hs hv ih =>
      intro hctx hstop
      simp only [parser, readLine, hctx] at hv
      split at hv
      · rename_i hcolon
        have hctx' : ctx'.state_ = .kExpectHeaders := by
          cases hv
          rfl
        have hread := parser.read_of_next (s := ctx) (t := ctx') hs
          (by simpa [parser, readLine, hctx, hcolon] using hv)
        rw [hread] at hstop ⊢
        obtain ⟨lines, last, hlines, hlast, hfree, hrest⟩ := ih hctx' hstop
        obtain ⟨hline, hxs⟩ := splitLine?_eq_some_iff.mp hs
        refine ⟨line :: lines, last, ?_, hlast, hfree, ?_⟩
        · intro l hl
          rcases List.mem_cons.mp hl with rfl | hl
          · exact ⟨List.idxOf_lt_length_iff.mp (lt_of_le_of_ne List.idxOf_le_length hcolon), hline⟩
          · exact hlines l hl
        · rw [hxs, terminated, List.flatMap_cons, List.append_assoc (line ++ crlf)]
          exact congrArg (line ++ crlf ++ ·) hrest
      · cases hv
  | finish ctx xs line rest ctx' hs hv =>
      intro hctx _
      rw [parser.read_of_finish hs hv]
      simp only [parser, readLine, hctx] at hv
      split at hv
      · cases hv
      · rename_i hcolon
        obtain ⟨hline, hxs⟩ := splitLine?_eq_some_iff.mp hs
        refine ⟨[], line, by simp, ?_, hline, hxs⟩
        intro hmem
        exact hcolon (List.idxOf_lt_length_of_mem hmem).ne
  | reject ctx xs line rest ctx' hs hv =>
      intro hctx _
      simp only [parser, readLine, hctx] at hv
      split at hv <;> cases hv

/-- A reading that finishes has passed a request line, header lines and one line without a
colon. -/
theorem lines_of_finished {xs : List UInt8} (hstop : (parser.read {} xs).stop = .finished) :
    ∃ (line : RequestLine) (headers : List (List UInt8)) (last : List UInt8),
      Unbroken line.render ∧ (∀ header ∈ headers, IsHeaderLine header) ∧
      58 ∉ last ∧ Unbroken last ∧
      xs = line.render ++ crlf ++
        (terminated headers ++ (last ++ crlf ++ (parser.read {} xs).rest)) := by
  cases hs : splitLine? xs with
  | none => simp [parser.read_of_none (show parser.split xs = none from hs)] at hstop
  | some pair =>
      obtain ⟨text, rest⟩ := pair
      have hsplit : parser.split xs = some (text, rest) := hs
      obtain ⟨hline, hxs⟩ := splitLine?_eq_some_iff.mp hs
      cases hok : (processRequestLine {} text).1 with
      | false =>
          have hv : parser.step {} text =
              .reject ⟨.kExpectRequestLine, (processRequestLine {} text).2⟩ := by
            simp [parser, readLine, hok]
          simp [parser.read_of_reject hsplit hv] at hstop
      | true =>
          have hv :
              parser.step {} text = .next ⟨.kExpectHeaders, (processRequestLine {} text).2⟩ := by
            simp [parser, readLine, hok]
          obtain ⟨line, rfl⟩ := eq_render_of_processRequestLine hok
          have hread := parser.read_of_next hsplit hv
          rw [hread] at hstop ⊢
          obtain ⟨headers, last, hheaders, hlast, hfree, hrest⟩ :=
            headers_of_finished _ rest rfl hstop
          refine ⟨line, headers, last, hline, hheaders, hlast, hfree, ?_⟩
          rw [← hrest]
          exact hxs

/-! ## Acceptance -/

/-- A complete header line without a colon that is not empty, in its place after a valid
request line and valid header lines. -/
def ColonlessHeader (bs : List UInt8) : Prop :=
  ∃ (line : RequestLine) (headers : List (List UInt8)) (bad rest : List UInt8),
    Unbroken line.render ∧ (∀ header ∈ headers, IsHeaderLine header) ∧
    bad ≠ [] ∧ 58 ∉ bad ∧ Unbroken bad ∧
    bs = line.render ++ crlf ++ (terminated headers ++ (bad ++ crlf ++ rest))

/-- A new context accepts exactly the requests at the beginning of the buffer, consumes
exactly them, and refuses a header line without a colon. -/
def AcceptsExactly (buf : Buffer) : Prop :=
  ∀ t, ∃ ok ctx rest, HttpContext.parseRequest {} buf t = some (ok, ctx, rest) ∧
    (ctx.gotAll = true ↔ ∃ r : RequestText, r.render <+: buf.readable) ∧
    (∀ r : RequestText, r.render <+: buf.readable → buf.readable = r.render ++ rest.readable) ∧
    (ColonlessHeader buf.readable → ok = false ∧ ctx.gotAll = false)

/-- The line without a colon is taken for the end of the headers. -/
theorem finished_of_colonlessHeader {bs : List UInt8} (h : ColonlessHeader bs) :
    (parser.read {} bs).stop = .finished := by
  obtain ⟨line, headers, bad, rest, hline, hheaders, -, hbad, hfree, rfl⟩ := h
  rw [read_requestLine hline, read_headers hheaders, read_last hbad hfree]

theorem not_acceptsExactly_of_colonlessHeader {buf : Buffer} (h : ColonlessHeader buf.readable) :
    ¬ AcceptsExactly buf := by
  intro hexact
  obtain ⟨ok, ctx, rest, hparse, -, -, hrefused⟩ := hexact {}
  obtain ⟨ok', ctx', rest', hparse', hfollows⟩ := parseRequest_spec {} buf {} (.inl rfl)
  rw [hparse] at hparse'
  obtain ⟨rfl, rfl, rfl⟩ : ok = ok' ∧ ctx = ctx' ∧ rest = rest' := by simpa using hparse'
  have hgot := (gotAll_iff_of_follows (.inl rfl) hfollows).mpr (finished_of_colonlessHeader h)
  rw [(hrefused h).2] at hgot
  cases hgot

theorem acceptsExactly_of_not_colonlessHeader {buf : Buffer}
    (h : ¬ ColonlessHeader buf.readable) : AcceptsExactly buf := by
  intro t
  obtain ⟨ok, ctx, rest, hparse, hfollows⟩ := parseRequest_spec {} buf t (.inl rfl)
  have hgot := gotAll_iff_of_follows (.inl rfl) hfollows
  rw [eraseTime_new] at hgot hfollows
  refine ⟨ok, ctx, rest, hparse, ?_, ?_, fun hbad => absurd hbad h⟩
  · rw [hgot]
    constructor
    · intro hstop
      obtain ⟨line, headers, last, hline, hheaders, hlast, hfree, hbuf⟩ := lines_of_finished hstop
      obtain rfl : last = [] := by
        by_contra hne
        exact h ⟨line, headers, last, _, hline, hheaders, hne, hlast, hfree, hbuf⟩
      refine ⟨⟨line, headers, hline, hheaders⟩, (parser.read {} buf.readable).rest, ?_⟩
      simpa only [RequestText.render, List.append_assoc] using hbuf.symm
    · rintro ⟨r, xs, hxs⟩
      rw [← hxs, read_render]
  · rintro r ⟨xs, hxs⟩
    have hrest := hfollows.rest
    rw [← hxs, read_render] at hrest
    rw [← hxs]
    exact congrArg (r.render ++ ·) hrest.symm

/-- The parser accepts exactly its grammar on the buffers that hold no header line without
a colon. -/
theorem acceptsExactly_iff_not_colonlessHeader (buf : Buffer) :
    AcceptsExactly buf ↔ ¬ ColonlessHeader buf.readable :=
  ⟨fun hexact hbad => not_acceptsExactly_of_colonlessHeader hbad hexact,
    acceptsExactly_of_not_colonlessHeader⟩

/-- `GET / HTTP/1.1`. -/
def getRoot : RequestLine := ⟨.kGet, ascii "/", .kHttp11, by decide, by decide, by decide⟩

/-- A buffer that holds a request whose only header line has no colon. -/
def colonlessExample : Buffer :=
  (Buffer.new kInitialSize kInitialSize_le).append
    (ascii "GET / HTTP/1.1\r\nfoo\r\nHost: a\r\n\r\n")

theorem not_acceptsExactly_colonlessExample : ¬ AcceptsExactly colonlessExample := by
  refine not_acceptsExactly_of_colonlessHeader ⟨getRoot, [], ascii "foo",
    ascii "Host: a\r\n\r\n", by decide, by simp, by decide, by decide, by decide, ?_⟩
  rw [colonlessExample, Buffer.readable_append, Buffer.readable_new]
  decide

end CkServer
