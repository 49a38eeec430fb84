import CkServer.Verification.Http.Parser

/-! # Request lines

A request line is a method, a target and a version with one space between each. These are
the lines that `processRequestLine` accepts, and what it stores of them. -/

namespace CkServer

open Text HttpContext

def Version.text : Version → List UInt8
  | .kUnknown => []
  | .kHttp10 => ascii "HTTP/1.0"
  | .kHttp11 => ascii "HTTP/1.1"

structure RequestLine where
  method : Method
  target : List UInt8
  version : Version
  method_known : method ≠ .kInvalid
  version_known : version ≠ .kUnknown
  target_no_space : 32 ∉ target

namespace RequestLine

def render (rl : RequestLine) : List UInt8 :=
  rl.method.methodString ++ [32] ++ (rl.target ++ [32] ++ rl.version.text)

/-- The target up to its first question mark. -/
def path (rl : RequestLine) : List UInt8 := rl.target.take (rl.target.idxOf 63)

/-- The target from its first question mark on. -/
def query (rl : RequestLine) : List UInt8 := rl.target.drop (rl.target.idxOf 63)

/-- A request that holds the parts of the line. A target without a question mark leaves the
query of the request as it is. -/
def store (rl : RequestLine) (req : HttpRequest) : HttpRequest :=
  { req with
    method_ := rl.method
    version_ := rl.version
    path_ := rl.path
    query_ := if 63 ∈ rl.target then rl.query else req.query_ }

end RequestLine

/-! ## The parts of a line -/

theorem setMethod_methodString (req : HttpRequest) {m : Method} (h : m ≠ .kInvalid) :
    req.setMethod m.methodString = (true, { req with method_ := m }) := by
  cases m with
  | kInvalid => exact absurd rfl h
  | kGet => rfl
  | kPost => rfl
  | kHead => rfl
  | kPut => rfl
  | kDelete => rfl

theorem eq_methodString_of_setMethod {req : HttpRequest} {text : List UInt8}
    (h : (req.setMethod text).1 = true) : ∃ m, m ≠ Method.kInvalid ∧ text = m.methodString := by
  simp only [HttpRequest.setMethod, decide_eq_true_eq] at h
  split_ifs at h with hget hpost hhead hput hdelete
  · exact ⟨.kGet, by decide, hget⟩
  · exact ⟨.kPost, by decide, hpost⟩
  · exact ⟨.kHead, by decide, hhead⟩
  · exact ⟨.kPut, by decide, hput⟩
  · exact ⟨.kDelete, by decide, hdelete⟩
  · exact absurd rfl h

theorem space_notMem_methodString (m : Method) : 32 ∉ m.methodString := by
  cases m <;> decide

theorem processTarget_eq (req : HttpRequest) (target : List UInt8) :
    processTarget req target =
      { req with
        path_ := target.take (target.idxOf 63)
        query_ := if 63 ∈ target then target.drop (target.idxOf 63) else req.query_ } := by
  by_cases hmem : 63 ∈ target
  · have hne : target.idxOf 63 ≠ target.length := (List.idxOf_lt_length_of_mem hmem).ne
    simp [processTarget, hne, hmem, HttpRequest.setPath, HttpRequest.setQuery]
  · have heq : target.idxOf 63 = target.length := List.idxOf_eq_length hmem
    simp [processTarget, hmem, HttpRequest.setPath]

theorem processVersion_text (req : HttpRequest) {v : Version} (h : v ≠ .kUnknown) :
    processVersion req v.text = (true, req.setVersion v) := by
  cases v with
  | kUnknown => exact absurd rfl h
  | kHttp10 => rfl
  | kHttp11 => rfl

theorem eq_text_of_processVersion {req : HttpRequest} {text : List UInt8}
    (h : (processVersion req text).1 = true) : ∃ v, v ≠ Version.kUnknown ∧ text = v.text := by
  simp only [processVersion] at h
  split_ifs at h with hform hone hzero
  · refine ⟨.kHttp11, by decide, ?_⟩
    rw [← List.take_append_drop 7 text, hform.2, hone]
    rfl
  · refine ⟨.kHttp10, by decide, ?_⟩
    rw [← List.take_append_drop 7 text, hform.2, hzero]
    rfl

/-- A text that has the symbol first at its own end. -/
private theorem idxOf_append_singleton {a : UInt8} {xs : List UInt8} (h : a ∉ xs)
    (ys : List UInt8) :
    (xs ++ [a] ++ ys).idxOf a = xs.length ∧ (xs ++ [a] ++ ys).take xs.length = xs ∧
      (xs ++ [a] ++ ys).drop (xs.length + 1) = ys ∧
      xs.length ≠ (xs ++ [a] ++ ys).length := by
  refine ⟨?_, ?_, ?_, by simp⟩
  · rw [List.append_assoc, List.idxOf_append_of_notMem h]
    simp
  · rw [List.append_assoc, List.take_left]
  · rw [← List.drop_drop, List.append_assoc, List.drop_left]
    rfl

/-- A text that contains the symbol, cut at its first occurrence. -/
private theorem eq_append_of_idxOf_ne {a : UInt8} {xs : List UInt8} (h : xs.idxOf a ≠ xs.length) :
    xs = xs.take (xs.idxOf a) ++ [a] ++ xs.drop (xs.idxOf a + 1) ∧
      a ∉ xs.take (xs.idxOf a) := by
  have hlt : xs.idxOf a < xs.length := lt_of_le_of_ne List.idxOf_le_length h
  constructor
  · have hget : xs[xs.idxOf a] = a := List.getElem_idxOf hlt
    conv_lhs => rw [← List.take_append_drop (xs.idxOf a) xs, List.drop_eq_getElem_cons hlt, hget]
    simp
  · have hmem : a ∈ xs := List.idxOf_lt_length_iff.mp hlt
    rw [List.mem_take_iff_idxOf_lt hmem]
    exact lt_irrefl _

/-! ## Whole lines -/

/-- A request line is accepted, and its parts are stored. -/
theorem processRequestLine_render (rl : RequestLine) (req : HttpRequest) :
    processRequestLine req rl.render = (true, rl.store req) := by
  obtain ⟨hidx, htake, hdrop, hne⟩ := idxOf_append_singleton
    (space_notMem_methodString rl.method) (rl.target ++ [32] ++ rl.version.text)
  obtain ⟨hidx', htake', hdrop', hne'⟩ :=
    idxOf_append_singleton rl.target_no_space rl.version.text
  simp only [RequestLine.render, processRequestLine, hidx, htake, hdrop, hidx', htake', hdrop',
    setMethod_methodString req rl.method_known, processTarget_eq,
    processVersion_text _ rl.version_known]
  rw [if_pos hne, if_pos trivial, if_pos hne']
  rfl

/-- Only request lines are accepted. -/
theorem eq_render_of_processRequestLine {req : HttpRequest} {line : List UInt8}
    (h : (processRequestLine req line).1 = true) : ∃ rl : RequestLine, line = rl.render := by
  simp only [processRequestLine] at h
  split_ifs at h with hspace hmethod hspace'
  · obtain ⟨hline, -⟩ := eq_append_of_idxOf_ne hspace
    obtain ⟨hrest, htarget⟩ := eq_append_of_idxOf_ne hspace'
    obtain ⟨m, hm, hname⟩ := eq_methodString_of_setMethod hmethod
    obtain ⟨v, hv, hversion⟩ := eq_text_of_processVersion h
    refine ⟨⟨m, _, v, hm, hv, htarget⟩, ?_⟩
    rw [RequestLine.render, ← hname, ← hversion, ← hrest]
    exact hline

/-- The target is cut in front of its first question mark. -/
theorem RequestLine.path_append_query (rl : RequestLine) : rl.path ++ rl.query = rl.target :=
  List.take_append_drop _ _

theorem RequestLine.question_notMem_path (rl : RequestLine) : 63 ∉ rl.path := by
  rw [path]
  by_cases hmem : 63 ∈ rl.target
  · rw [List.mem_take_iff_idxOf_lt hmem]
    exact lt_irrefl _
  · exact fun h => hmem (List.mem_of_mem_take h)

theorem RequestLine.head?_query (rl : RequestLine) (hmem : 63 ∈ rl.target) :
    rl.query.head? = some 63 := by
  have hlt := List.idxOf_lt_length_of_mem hmem
  rw [query, List.head?_drop, List.getElem?_eq_getElem hlt, List.getElem_idxOf hlt]

/-- On a new request exactly the request lines are accepted, each with its method, its version,
and its target cut into path and query. -/
theorem processRequestLine_accepts_iff (line : List UInt8) :
    ((processRequestLine {} line).1 = true ↔ ∃ rl : RequestLine, line = rl.render) ∧
      ∀ rl : RequestLine, line = rl.render → ∃ req, processRequestLine {} line = (true, req) ∧
        req.method_ = rl.method ∧ req.version_ = rl.version ∧
        req.path_ ++ req.query_ = rl.target ∧ 63 ∉ req.path_ ∧
        (req.query_ = [] ∨ req.query_.head? = some 63) := by
  constructor
  · constructor
    · exact eq_render_of_processRequestLine
    · rintro ⟨rl, rfl⟩
      rw [processRequestLine_render]
  · rintro rl rfl
    refine ⟨rl.store {}, processRequestLine_render rl {}, rfl, rfl, ?_⟩
    have hpath : (rl.store {}).path_ = rl.path := rfl
    by_cases hmem : 63 ∈ rl.target
    · have hquery : (rl.store {}).query_ = rl.query := if_pos hmem
      rw [hpath, hquery]
      exact ⟨rl.path_append_query, rl.question_notMem_path, .inr (rl.head?_query hmem)⟩
    · have hquery : (rl.store {}).query_ = [] := if_neg hmem
      have htarget : rl.path = rl.target := by
        rw [RequestLine.path, List.idxOf_eq_length hmem, List.take_length]
      rw [hpath, hquery, htarget, List.append_nil]
      exact ⟨rfl, hmem, .inl rfl⟩

end CkServer
