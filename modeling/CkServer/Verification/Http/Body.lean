import CkServer.Verification.Http.Grammar
import CkServer.Verification.Http.Incremental

/-! # Requests with a body

The parser declares a state for bodies and never enters it, and it does not read
`Content-Length`. The bytes after the headers are lines to it, whatever they are. -/

namespace CkServer

open Text Lines HttpContext HttpSession

/-! ## The lines that the parser examines -/

/-- A line that the parser has examined, and where it begins in the stream. -/
structure ParsedLine where
  start : ℕ
  line : List UInt8

/-- The end of the CRLF of the line. -/
def ParsedLine.stop (l : ParsedLine) : ℕ := l.start + l.line.length + 2

/-- The line that the next turn of the loop examines. -/
def HttpContext.ParseLoop.line? (s : ParseLoop) : Option (List UInt8) :=
  match s.context.state_ with
  | .kExpectRequestLine => s.buf.findCRLF.map s.buf.peek
  | .kExpectHeaders => s.buf.findCRLF.map s.buf.peek
  | .kExpectBody => none
  | .kGotAll => none

/-- The lines that at most `fuel` turns of the loop examine, after `n` received bytes. -/
def parsedLines (n : ℕ) (t : Timestamp) : ℕ → ParseLoop → List ParsedLine
  | 0, _ => []
  | fuel + 1, s =>
      if s.hasMore then
        (s.line?.map (ParsedLine.mk (n - s.buf.readableBytes))).toList ++
          parsedLines n t fuel (parseTurn t s)
      else
        []

/-- The lines that the parser examines in the given calls of `onMessage`, `n` bytes having
been received before them. -/
def lineLog : HttpSession → ℕ → List Delivery → List ParsedLine
  | _, _, [] => []
  | s, n, d :: ds =>
      let buf := s.inputBuffer_.append d.data
      parsedLines (n + d.data.length) d.receiveTime (buf.readableBytes + 1)
          ⟨true, true, s.context_, buf⟩ ++
        match s.deliver d with
        | some s' => lineLog s' (n + d.data.length) ds
        | none => []

/-- A request whose headers announce the body that is sent after it. -/
structure BodyRequest where
  head : RequestText
  body : List UInt8
  contentLength : decimal? (head.request.getHeader (ascii "Content-Length")) = some body.length

/-- No examined line contains a byte of the body, and the first line examined after the
headers begins behind the body. -/
structure Framed (b : BodyRequest) (log : List ParsedLine) : Prop where
  outside : ∀ l ∈ log, l.stop ≤ b.head.render.length ∨
    b.head.render.length + b.body.length ≤ l.start
  next : ∀ l, log.find? (b.head.render.length ≤ ·.start) = some l →
    l.start = b.head.render.length + b.body.length

/-! ## The lines of one call -/

theorem line?_eq {s : ParseLoop} (h : Reading s.context) :
    s.line? = (splitLine? s.buf.readable).map Prod.fst := by
  have hline : s.line? = s.buf.findCRLF.map s.buf.peek := by
    rcases h with h | h <;> simp [ParseLoop.line?, h]
  rw [hline]
  cases hfind : s.buf.findCRLF with
  | none => rw [splitLine?_of_findCRLF_none hfind, Option.map_none, Option.map_none]
  | some crlf => rw [splitLine?_of_findCRLF hfind, Option.map_some, Option.map_some]

theorem length_of_splitLine? {bs line rest : List UInt8} (h : splitLine? bs = some (line, rest)) :
    bs.length = line.length + 2 + rest.length := by
  rw [(splitLine?_eq_some_iff.mp h).2, List.length_append, List.length_append]
  rfl

theorem parsedLines_of_stopped {n : ℕ} {t : Timestamp} {s : ParseLoop} (h : s.hasMore = false)
    (fuel : ℕ) : parsedLines n t fuel s = [] := by
  cases fuel <;> simp [parsedLines, h]

/-- Every line lies between the first unread byte and the last byte received, and before
what the call leaves unread unless the call is refused. -/
theorem mem_parsedLines {n : ℕ} {t : Timestamp} (fuel : ℕ) :
    ∀ (ctx : HttpContext) (buf : Buffer), Reading ctx → buf.readableBytes ≤ n →
      ∀ l ∈ parsedLines n t fuel ⟨true, true, ctx, buf⟩,
        n - buf.readableBytes ≤ l.start ∧ l.stop ≤ n ∧
        ((parser.read ctx.eraseTime buf.readable).stop ≠ .rejected →
          l.stop + (parser.read ctx.eraseTime buf.readable).rest.length ≤ n) := by
  induction fuel with
  | zero => simp [parsedLines]
  | succ fuel ih =>
      intro ctx buf hctx hn l hl
      rw [parsedLines, if_pos rfl, List.mem_append, line?_eq hctx] at hl
      rcases hl with hl | hl
      · simp only [Option.mem_toList, Option.map_eq_some_iff] at hl
        obtain ⟨line, ⟨⟨line', rest⟩, hsplit, rfl⟩, rfl⟩ := hl
        have hlen := length_of_splitLine? hsplit
        rw [Buffer.length_readable] at hlen
        simp only [ParsedLine.stop]
        refine ⟨le_rfl, by omega, ?_⟩
        intro hstop
        have hrest := parser.length_rest_le_of_split hsplit hstop
        omega
      · rcases parseTurn_spec t ctx buf hctx with
          ⟨line, ctx', buf', hs, hreading, hsplit, ho⟩ | ⟨s, hs, hstop, -⟩
        · have hlen := length_of_splitLine? hsplit
          rw [Buffer.length_readable, Buffer.length_readable] at hlen
          rw [hs] at hl
          obtain ⟨hstart, hreceived, hrest⟩ := ih ctx' buf' hreading (by omega) l hl
          rw [ho]
          exact ⟨by omega, hreceived, hrest⟩
        · rw [hs, parsedLines_of_stopped hstop] at hl
          cases hl

theorem parsedLines_of_none {n fuel : ℕ} {t : Timestamp} {ctx : HttpContext} {buf : Buffer}
    (hctx : Reading ctx) (h : splitLine? buf.readable = none) :
    parsedLines n t fuel ⟨true, true, ctx, buf⟩ = [] := by
  cases fuel with
  | zero => rfl
  | succ fuel =>
      rw [parsedLines, if_pos rfl, line?_eq hctx, h]
      rcases parseTurn_spec t ctx buf hctx with
        ⟨line, ctx', buf', -, -, hsplit, -⟩ | ⟨s, hs, hstop, -⟩
      · rw [h] at hsplit
        cases hsplit
      · rw [hs, parsedLines_of_stopped hstop]
        rfl

theorem parsedLines_of_some {n fuel : ℕ} {t : Timestamp} {ctx : HttpContext} {buf : Buffer}
    {line rest : List UInt8} (hctx : Reading ctx)
    (h : splitLine? buf.readable = some (line, rest)) :
    ∃ more, parsedLines n t (fuel + 1) ⟨true, true, ctx, buf⟩ =
      ⟨n - buf.readableBytes, line⟩ :: more := by
  rw [parsedLines, if_pos rfl, line?_eq hctx, h]
  exact ⟨_, rfl⟩

/-! ## The lines of a run -/

/-- The lines of one more call, and the session that the call leaves. -/
theorem lineLog_cons {s : HttpSession} {c : Resumable.Session HttpContext UInt8 HttpRequest}
    (h : Implements s c) (n : ℕ) (d : Delivery) :
    ∃ s' buf, s.deliver d = some s' ∧ buf.readable = c.pending ++ d.data ∧
      Implements s' (parser.deliver {} HttpContext.request_ c d.data) ∧
      ∀ ds, lineLog s n (d :: ds) =
        parsedLines (n + d.data.length) d.receiveTime (buf.readableBytes + 1)
          ⟨true, true, s.context_, buf⟩ ++ lineLog s' (n + d.data.length) ds := by
  obtain ⟨s', hdeliver, himp⟩ := deliver_implements h d
  refine ⟨s', s.inputBuffer_.append d.data, hdeliver, ?_, himp, ?_⟩
  · rw [Buffer.readable_append, h.pending]
  · intro ds
    rw [lineLog, hdeliver]

theorem lineLog_append {s s' : HttpSession} (n : ℕ) {as : List Delivery} (bs : List Delivery)
    (h : as.foldlM deliver s = some s') :
    lineLog s n (as ++ bs) = lineLog s n as ++ lineLog s' (n + (received as).length) bs := by
  induction as generalizing s n with
  | nil =>
      obtain rfl : s = s' := by simpa using h
      simp [lineLog, received]
  | cons d as ih =>
      rw [List.foldlM_cons] at h
      obtain ⟨s₁, hdeliver, hrest⟩ := Option.bind_eq_some_iff.mp h
      rw [List.cons_append, lineLog, lineLog, hdeliver]
      simp only [ih _ hrest, List.append_assoc, received, List.flatMap_cons, List.length_append,
        Nat.add_assoc]

/-- Every line of a run lies between the first byte kept before it and the last byte
received. -/
theorem mem_lineLog {ds : List Delivery} :
    ∀ {s : HttpSession} {c : Resumable.Session HttpContext UInt8 HttpRequest} {n : ℕ},
      Implements s c → c.pending.length ≤ n → ∀ l ∈ lineLog s n ds,
        n - c.pending.length ≤ l.start ∧ l.stop ≤ n + (received ds).length := by
  induction ds with
  | nil => simp [lineLog]
  | cons d ds ih =>
      intro s c n h hn l hl
      obtain ⟨s', buf, -, hbuf, himp, hlog⟩ := lineLog_cons h n d
      have hlen : buf.readableBytes = c.pending.length + d.data.length := by
        rw [← Buffer.length_readable, hbuf, List.length_append]
      have hkept := parser.length_rest_le c.state (c.pending ++ d.data)
      rw [← parser.pending_deliver {} HttpContext.request_, List.length_append] at hkept
      rw [hlog, List.mem_append] at hl
      simp only [received, List.flatMap_cons, List.length_append] at ih ⊢
      rcases hl with hl | hl
      · obtain ⟨hstart, hstop, -⟩ := mem_parsedLines _ _ buf h.reading (by omega) l hl
        omega
      · have hrest := ih himp (by omega) l hl
        omega

theorem deliver_of_none {c : Resumable.Session HttpContext UInt8 HttpRequest} {data : List UInt8}
    (h : splitLine? (c.pending ++ data) = none) :
    parser.deliver {} HttpContext.request_ c data = ⟨c.state, c.pending ++ data, c.emitted⟩ := by
  have hread := parser.read_of_none (s := c.state) (show parser.split _ = none from h)
  simp [Resumable.deliver, hread]

/-- Without a line break nothing is examined. -/
theorem lineLog_of_unbroken {ds : List Delivery} :
    ∀ {s : HttpSession} {c : Resumable.Session HttpContext UInt8 HttpRequest} (n : ℕ),
      Implements s c → Unbroken (c.pending ++ received ds) → lineLog s n ds = [] := by
  induction ds with
  | nil =>
      intro s c n _ _
      rfl
  | cons d ds ih =>
      intro s c n h hfree
      obtain ⟨s', buf, -, hbuf, himp, hlog⟩ := lineLog_cons h n d
      rw [received, List.flatMap_cons, ← List.append_assoc] at hfree
      have hnone : splitLine? (c.pending ++ d.data) = none := by
        rw [splitLine?_eq_none_iff]
        intro hsub
        exact hfree (hsub.trans (List.prefix_append _ _).isInfix)
      rw [deliver_of_none hnone] at himp
      rw [hlog, parsedLines_of_none h.reading (by rw [hbuf, hnone]), ih _ himp hfree]
      rfl

/-- The first line that is examined begins at the first byte kept. -/
theorem lineLog_of_broken {ds : List Delivery} :
    ∀ {s : HttpSession} {c : Resumable.Session HttpContext UInt8 HttpRequest} {n : ℕ},
      Implements s c → c.pending.length ≤ n → ds ≠ [] → ¬ Unbroken (c.pending ++ received ds) →
        ∃ line more, lineLog s n ds = ⟨n - c.pending.length, line⟩ :: more := by
  induction ds with
  | nil =>
      intro s c n _ _ hne
      exact absurd rfl hne
  | cons d ds ih =>
      intro s c n h hn _ hbroken
      obtain ⟨s', buf, -, hbuf, himp, hlog⟩ := lineLog_cons h n d
      have hlen : buf.readableBytes = c.pending.length + d.data.length := by
        rw [← Buffer.length_readable, hbuf, List.length_append]
      rw [received, List.flatMap_cons, ← List.append_assoc] at hbroken
      cases hsplit : splitLine? (c.pending ++ d.data) with
      | none =>
          rw [deliver_of_none hsplit] at himp
          have hne : ds ≠ [] := by
            rintro rfl
            rw [List.flatMap_nil, List.append_nil] at hbroken
            exact hbroken (splitLine?_eq_none_iff.mp hsplit)
          obtain ⟨line, more, hrest⟩ :=
            ih (n := n + d.data.length) himp (by rw [List.length_append]; omega) hne hbroken
          refine ⟨line, more, ?_⟩
          rw [hlog, parsedLines_of_none h.reading (by rw [hbuf, hsplit]), hrest, List.nil_append,
            List.length_append, Nat.add_sub_add_right]
      | some pair =>
          obtain ⟨line, rest⟩ := pair
          obtain ⟨more, hmore⟩ : ∃ more, _ = _ :=
            parsedLines_of_some (n := n + d.data.length) h.reading (by rw [hbuf, hsplit])
          refine ⟨line, more ++ lineLog s' (n + d.data.length) ds, ?_⟩
          rw [hlog, hmore, List.cons_append, hlen, Nat.add_sub_add_right]

/-! ## The call that completes the headers -/

/-- The call in which the received bytes reach a given number. -/
theorem exists_reaching {k : ℕ} (hk : 0 < k) {ds : List Delivery} (h : k ≤ (received ds).length) :
    ∃ before d after, ds = before ++ d :: after ∧ (received before).length < k ∧
      k ≤ (received (before ++ [d])).length := by
  induction ds using List.reverseRecOn with
  | nil => simp [received] at h; omega
  | append_singleton ds d ih =>
      by_cases hle : k ≤ (received ds).length
      · obtain ⟨before, d', after, rfl, hlt, hreach⟩ := ih hle
        exact ⟨before, d', after ++ [d], by simp, hlt, hreach⟩
      · exact ⟨ds, d, [], rfl, by omega, h⟩

theorem after_eq_nil_of_lt {k : ℕ} {before after : List Delivery} {d : Delivery}
    (hreach : k ≤ (received (before ++ [d])).length)
    (hlt : (received (before ++ d :: after).dropLast).length < k) : after = [] := by
  induction after using List.reverseRecOn with
  | nil => rfl
  | append_singleton after d' _ =>
      rw [show before ++ d :: (after ++ [d']) = (before ++ [d]) ++ after ++ [d'] by simp,
        List.dropLast_concat] at hlt
      simp only [received, List.flatMap_append, List.length_append] at hreach hlt
      omega

/-- The session before a request is whole. -/
theorem abstract_of_lt {r : RequestText} {before : List Delivery}
    (hpre : received before <+: r.render) (hlt : (received before).length < r.render.length) :
    abstract before = ⟨(parser.read {} (received before)).state,
      (parser.read {} (received before)).rest, []⟩ := by
  have hstarved := starved_of_lt hpre hlt
  rw [received_eq_flatten] at hstarved ⊢
  exact parser.session_of_starved {} HttpContext.request_ hstarved

/-- The call that completes a request leaves a new context and the bytes after the request. -/
theorem deliver_abstract {r : RequestText} {before : List Delivery} {data tail : List UInt8}
    (hlt : (received before).length < r.render.length)
    (hdata : received before ++ data = r.render ++ tail) :
    parser.read (abstract before).state ((abstract before).pending ++ data) =
        ⟨.finished, ⟨.kGotAll, r.request⟩, tail⟩ ∧
      parser.deliver {} HttpContext.request_ (abstract before) data = ⟨{}, tail, [r.request]⟩ := by
  have hpre : received before <+: r.render :=
    List.prefix_of_prefix_length_le (hdata ▸ List.prefix_append _ data) (List.prefix_append _ tail)
      hlt.le
  have hmore := parser.read_more_of_starved {} (received before) data (starved_of_lt hpre hlt)
  rw [hdata, read_render] at hmore
  rw [abstract_of_lt hpre hlt]
  refine ⟨hmore.symm, ?_⟩
  simp [Resumable.deliver, ← hmore]

/-- The lines of a run, cut where the request is whole: those before end within it, and the
first one behind it begins where it ends. -/
theorem lineLog_split {r : RequestText} {tail : List UInt8} {ds : List Delivery}
    (h : received ds = r.render ++ tail) :
    ∃ log log', lineLog {} 0 ds = log ++ log' ∧ (∀ l ∈ log, l.stop ≤ r.render.length) ∧
      (∀ l ∈ log', r.render.length ≤ l.start) ∧
      ((received ds.dropLast).length < r.render.length ∨ Unbroken tail → log' = []) ∧
      (¬ ((received ds.dropLast).length < r.render.length ∨ Unbroken tail) →
        ∃ line more, log' = ⟨r.render.length, line⟩ :: more) := by
  have hpos : 0 < r.render.length := List.length_pos_iff.mpr r.render_ne_nil
  obtain ⟨before, d, after, rfl, hlt, hreach⟩ :=
    exists_reaching hpos (by rw [h, List.length_append]; omega : _ ≤ (received ds).length)
  -- the bytes up to and with the call that completes the request
  obtain ⟨tail', htail'⟩ : r.render <+: received (before ++ [d]) := by
    refine List.prefix_of_prefix_length_le (h ▸ List.prefix_append _ tail) ?_ hreach
    exact ⟨received after, by simp [received]⟩
  have hdata : received before ++ d.data = r.render ++ tail' := by
    rw [htail']
    simp [received]
  have hafter : tail = tail' ++ received after := by
    have hall : received (before ++ [d]) ++ received after = r.render ++ tail := by
      rw [← h]
      simp [received]
    rw [← htail', List.append_assoc] at hall
    exact (List.append_cancel_left hall).symm
  obtain ⟨s, hrun, himp⟩ := run_implements before
  obtain ⟨hread, hdeliver⟩ := deliver_abstract hlt hdata
  obtain ⟨s', buf, -, hbuf, himp', hlog⟩ := lineLog_cons himp (received before).length d
  rw [hdeliver] at himp'
  have hn : (received before).length + d.data.length = r.render.length + tail'.length := by
    rw [← List.length_append, hdata, List.length_append]
  have hkept : r.render.length = (received before).length + d.data.length - tail'.length := by
    omega
  have hle : buf.readableBytes ≤ (received before).length + d.data.length := by
    have hpending : (abstract before).pending.length ≤ (received before).length := by
      rw [received_eq_flatten]
      exact parser.length_pending_session {} HttpContext.request_ _
    rw [← Buffer.length_readable, hbuf, List.length_append]
    omega
  refine ⟨lineLog {} 0 before ++ parsedLines ((received before).length + d.data.length)
    d.receiveTime (buf.readableBytes + 1) ⟨true, true, s.context_, buf⟩,
    lineLog s' ((received before).length + d.data.length) after, ?_, ?_, ?_, ?_, ?_⟩
  · rw [lineLog_append 0 _ hrun, Nat.zero_add, hlog, List.append_assoc]
  · intro l hl
    rcases List.mem_append.mp hl with hl | hl
    · have hreceived : l.stop ≤ 0 + (received before).length :=
        (mem_lineLog implements_new le_rfl l hl).2
      omega
    · have hstop := (mem_parsedLines _ _ buf himp.reading hle l hl).2.2
      rw [himp.context, hbuf, hread] at hstop
      have hend : l.stop + tail'.length ≤ _ := hstop (by simp)
      omega
  · intro l hl
    rw [hkept]
    exact (mem_lineLog himp' (by simp only; omega) l hl).1
  · rintro (hlast | hfree)
    · rw [after_eq_nil_of_lt hreach hlast]
      rfl
    · apply lineLog_of_unbroken _ himp'
      rw [← hafter]
      exact hfree
  · intro hnot
    rw [not_or] at hnot
    rw [hkept]
    refine lineLog_of_broken himp' (by simp only; omega) ?_ ?_
    · rintro rfl
      apply hnot.1
      rw [List.dropLast_concat]
      exact hlt
    · rw [← hafter]
      exact hnot.2

/-! ## Framing -/

/-- Lines that end before a point do not begin behind it. -/
theorem find?_behind {k : ℕ} {log : List ParsedLine} (hbefore : ∀ l ∈ log, l.stop ≤ k)
    (log' : List ParsedLine) :
    (log ++ log').find? (k ≤ ·.start) = log'.find? (k ≤ ·.start) := by
  have hnone : log.find? (k ≤ ·.start) = none := by
    rw [List.find?_eq_none]
    intro l hl
    have hstop := hbefore l hl
    simp only [ParsedLine.stop] at hstop
    simp only [decide_eq_true_eq]
    omega
  rw [List.find?_append, hnone, Option.none_or]

theorem not_framed {b : BodyRequest} {rest : List UInt8} {ds : List Delivery}
    (h : received ds = b.head.render ++ (b.body ++ rest)) (hbody : b.body ≠ [])
    (hlast : ¬ (received ds.dropLast).length < b.head.render.length)
    (hbroken : ¬ Unbroken (b.body ++ rest)) : ¬ Framed b (lineLog {} 0 ds) := by
  intro hframed
  obtain ⟨log, log', hlog, hbefore, -, -, hfirst⟩ := lineLog_split h
  obtain ⟨line, more, rfl⟩ := hfirst (not_or.mpr ⟨hlast, hbroken⟩)
  have hstart := hframed.next ⟨b.head.render.length, line⟩
    (by rw [hlog, find?_behind hbefore]; simp)
  apply hbody
  simpa using hstart

/-- Nothing is examined behind the headers. -/
theorem framed_of_quiet {b : BodyRequest} {rest : List UInt8} {ds : List Delivery}
    (h : received ds = b.head.render ++ (b.body ++ rest))
    (hquiet : (received ds.dropLast).length < b.head.render.length ∨ Unbroken (b.body ++ rest)) :
    Framed b (lineLog {} 0 ds) := by
  obtain ⟨log, log', hlog, hbefore, -, hnil, -⟩ := lineLog_split h
  rw [hlog, hnil hquiet]
  refine ⟨fun l hl => .inl (hbefore l (by simpa using hl)), fun l hl => ?_⟩
  rw [find?_behind hbefore] at hl
  cases hl

theorem framed_of_nil {b : BodyRequest} {rest : List UInt8} {ds : List Delivery}
    (h : received ds = b.head.render ++ (b.body ++ rest)) (hbody : b.body = []) :
    Framed b (lineLog {} 0 ds) := by
  obtain ⟨log, log', hlog, hbefore, hbehind, hnil, hfirst⟩ := lineLog_split h
  rw [hlog]
  constructor
  · intro l hl
    rw [hbody]
    exact (List.mem_append.mp hl).imp (hbefore l) (hbehind l)
  · intro l hl
    rw [find?_behind hbefore] at hl
    by_cases hquiet : (received ds.dropLast).length < b.head.render.length ∨
        Unbroken (b.body ++ rest)
    · rw [hnil hquiet] at hl
      cases hl
    · obtain ⟨line, more, rfl⟩ := hfirst hquiet
      simp only [List.find?_cons, le_refl, decide_true, Option.some.injEq] at hl
      rw [← hl, hbody]
      rfl

/-- The stream stays framed behind the headers of a request exactly when the body is empty,
the last call completes the headers, or no line break follows them. -/
theorem framed_iff_quiet {b : BodyRequest} {rest : List UInt8} {ds : List Delivery}
    (h : received ds = b.head.render ++ (b.body ++ rest)) :
    Framed b (lineLog {} 0 ds) ↔
      b.body = [] ∨ (received ds.dropLast).length < b.head.render.length ∨
        Unbroken (b.body ++ rest) := by
  constructor
  · intro hframed
    by_contra hcond
    rw [not_or, not_or] at hcond
    exact not_framed h hcond.1 hcond.2.1 hcond.2.2 hframed
  · rintro (hbody | hquiet)
    · exact framed_of_nil h hbody
    · exact framed_of_quiet h hquiet

/-- A request that announces a body of 18 bytes, which is itself a request. -/
def postExample : BodyRequest where
  head := ⟨{ getRoot with method := .kPost, method_known := by decide },
    [ascii "Content-Length: 18"], by decide, by decide⟩
  body := ascii "GET / HTTP/1.1\r\n\r\n"
  contentLength := by decide

/-- The headers and the body in one chunk. -/
theorem framed_iff_quiet_postExample :
    Framed postExample
        (lineLog {} 0 [⟨postExample.head.render ++ (postExample.body ++ []), {}, {}⟩]) ↔
      postExample.body = [] ∨ (received []).length < postExample.head.render.length ∨
        Unbroken (postExample.body ++ []) :=
  framed_iff_quiet (by simp [received])

/-- The headers in one chunk and the body in the next. -/
theorem not_framed_postExample :
    ¬ Framed postExample
      (lineLog {} 0 [⟨postExample.head.render, {}, {}⟩, ⟨postExample.body, {}, {}⟩]) := by
  have hreceived : received [⟨postExample.head.render, {}, {}⟩, ⟨postExample.body, {}, {}⟩] =
      postExample.head.render ++ (postExample.body ++ []) := by
    simp [received]
  apply not_framed hreceived
  · decide
  · simp [received]
  · decide

end CkServer
