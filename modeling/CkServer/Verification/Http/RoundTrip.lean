import CkServer.Verification.Http.Grammar

/-! # Rendering and parsing

What a client writes as a request, and that the parser gives back its parts. The fields come
back through white space that the parser strips and through a map, so their values have no
white space at their ends and their names differ. -/

namespace CkServer

open Text Lines HttpContext

/-- A value without white space at either end. -/
def Trimmed (value : List UInt8) : Prop :=
  (∀ b ∈ value.head?, isspace b = false) ∧ (∀ b ∈ value.getLast?, isspace b = false)

instance (value : List UInt8) : Decidable (Trimmed value) :=
  inferInstanceAs (Decidable ((∀ b ∈ value.head?, isspace b = false) ∧
    (∀ b ∈ value.getLast?, isspace b = false)))

/-- A request as a client has it. -/
structure ClientRequest where
  method : Method
  version : Version
  path : List UInt8
  query : List UInt8
  fields : List Field
  method_known : method ≠ .kInvalid
  version_known : version ≠ .kUnknown
  path_clean : 32 ∉ path ∧ 63 ∉ path ∧ 13 ∉ path ∧ 10 ∉ path
  query_form : query = [] ∨ query.head? = some 63
  query_clean : 32 ∉ query ∧ 13 ∉ query ∧ 10 ∉ query
  names_distinct : (fields.map Prod.fst).Nodup
  name_clean : ∀ field ∈ fields, 58 ∉ field.1 ∧ 13 ∉ field.1 ∧ 10 ∉ field.1
  value_clean : ∀ field ∈ fields, 13 ∉ field.2 ∧ 10 ∉ field.2
  value_trimmed : ∀ field ∈ fields, Trimmed field.2

/-! ## Fields -/

theorem fieldValue_of_trimmed {value : List UInt8} (h : Trimmed value) :
    HttpRequest.fieldValue (32 :: value) = value := by
  have hhead : value.dropWhile isspace = value := by
    cases value with
    | nil => rfl
    | cons b value => exact List.dropWhile_cons_of_neg (by simp [h.1 b rfl])
  have hlast : value.rdropWhile isspace = value := by
    rw [List.rdropWhile_eq_self_iff]
    intro hne
    simp [h.2 _ (List.getLast?_eq_getLast_of_ne_nil hne)]
  rw [HttpRequest.fieldValue, List.dropWhile_cons_of_pos (by decide), hhead, hlast]

theorem storeHeader_fieldLine (req : HttpRequest) {field : Field} (hname : 58 ∉ field.1)
    (hvalue : Trimmed field.2) :
    storeHeader req (fieldLine field) =
      { req with headers_ := req.headers_.insert field.1 field.2 } := by
  have hcolon : (fieldLine field).idxOf 58 = field.1.length := by
    rw [fieldLine, List.append_assoc, List.idxOf_append_of_notMem hname]
    simp
  have htake : (fieldLine field).take field.1.length = field.1 := by
    rw [fieldLine, List.append_assoc, List.take_left]
  have hdrop : (fieldLine field).drop (field.1.length + 1) = 32 :: field.2 := by
    rw [fieldLine, ← List.drop_drop, List.append_assoc, List.drop_left]
    rfl
  rw [storeHeader, HttpRequest.addHeader, hcolon, htake, hdrop, fieldValue_of_trimmed hvalue]

/-- Storing the lines of some fields inserts the fields one after another. -/
theorem foldl_storeHeader {fields : List Field} (hname : ∀ field ∈ fields, 58 ∉ field.1)
    (hvalue : ∀ field ∈ fields, Trimmed field.2) (req : HttpRequest) :
    (fields.map fieldLine).foldl storeHeader req =
      { req with headers_ := req.headers_.insertMany fields } := by
  induction fields generalizing req with
  | nil => simp
  | cons field fields ih =>
      rw [List.map_cons, List.foldl_cons, storeHeader_fieldLine req (hname field (by simp))
        (hvalue field (by simp)), ih (fun f hf => hname f (by simp [hf]))
        (fun f hf => hvalue f (by simp [hf])), Std.ExtTreeMap.insertMany_cons]

/-- A map made of fields with distinct names has exactly these fields. -/
theorem getElem?_insertMany {fields : List Field} (hdistinct : (fields.map Prod.fst).Nodup)
    (name value : List UInt8) :
    ((∅ : Headers).insertMany fields)[name]? = some value ↔ (name, value) ∈ fields := by
  have hpairwise : fields.Pairwise fun a b => ¬ compare a.1 b.1 = .eq := by
    refine (List.pairwise_map.mp hdistinct).imp ?_
    intro a b hne heq
    exact hne (Std.LawfulEqOrd.eq_of_compare heq)
  constructor
  · intro hget
    by_cases hmem : name ∈ fields.map Prod.fst
    · obtain ⟨⟨name', value'⟩, hfield, rfl⟩ := List.mem_map.mp hmem
      rw [Std.ExtTreeMap.getElem?_insertMany_list_of_mem Std.ReflOrd.compare_self hpairwise hfield]
        at hget
      obtain rfl := Option.some.inj hget
      exact hfield
    · rw [Std.ExtTreeMap.getElem?_insertMany_list_of_contains_eq_false
        (by simpa using hmem)] at hget
      simp at hget
  · intro hfield
    exact Std.ExtTreeMap.getElem?_insertMany_list_of_mem Std.ReflOrd.compare_self hpairwise hfield

/-! ## Requests -/

namespace ClientRequest

variable (r : ClientRequest)

/-- The request line, a line for each field, and an empty line. -/
def render : List UInt8 :=
  r.method.methodString ++ [32] ++ (r.path ++ r.query ++ [32] ++ r.version.text) ++ crlf ++
    fieldBlock r.fields

def line : RequestLine where
  method := r.method
  target := r.path ++ r.query
  version := r.version
  method_known := r.method_known
  version_known := r.version_known
  target_no_space := by simp [r.path_clean.1, r.query_clean.1]

theorem render_line : r.line.render =
    r.method.methodString ++ [32] ++ (r.path ++ r.query ++ [32] ++ r.version.text) := rfl

theorem unbroken_line : Unbroken r.line.render := by
  apply unbroken_of_not_mem
  have hmethod : 13 ∉ r.method.methodString := by cases r.method <;> decide
  have hversion : 13 ∉ r.version.text := by cases r.version <;> decide
  simp [render_line, hmethod, hversion, r.path_clean, r.query_clean]

theorem valid_field {field : Field} (h : field ∈ r.fields) : field.Valid where
  name_no_colon := (r.name_clean field h).1
  name_no_return := (r.name_clean field h).2.1
  value_no_return := (r.value_clean field h).1

/-- The request as a text of the grammar. -/
def text : RequestText where
  line := r.line
  headers := r.fields.map fieldLine
  line_unbroken := r.unbroken_line
  headers_valid := by
    intro header hheader
    obtain ⟨field, hfield, rfl⟩ := List.mem_map.mp hheader
    exact ⟨by simp [fieldLine], unbroken_fieldLine (r.valid_field hfield)⟩

theorem render_text : r.text.render = r.render := by
  simp [RequestText.render, text, render, render_line, terminated, fieldBlock, List.flatMap_map]

/-- The first question mark of the target is where the query begins. -/
theorem store_line :
    r.line.store {} =
      { method_ := r.method, version_ := r.version, path_ := r.path, query_ := r.query } := by
  obtain ⟨-, hpath, -, -⟩ := r.path_clean
  rcases r.query_form with hnil | hhead
  · simp [RequestLine.store, RequestLine.path, line, hpath, hnil]
  · obtain ⟨rest, hquery⟩ := List.head?_eq_some_iff.mp hhead
    have hquestion : (r.path ++ r.query).idxOf 63 = r.path.length := by
      rw [List.idxOf_append_of_notMem hpath, hquery]
      simp
    have hmem : 63 ∈ r.path ++ r.query := by simp [hquery]
    simp [RequestLine.store, RequestLine.path, RequestLine.query, line, hquestion, hmem]

theorem request_text :
    r.text.request =
      { method_ := r.method, version_ := r.version, path_ := r.path, query_ := r.query,
        headers_ := (∅ : Headers).insertMany r.fields } := by
  rw [RequestText.request, show r.text.headers = r.fields.map fieldLine from rfl,
    foldl_storeHeader (fun field h => (r.name_clean field h).1) r.value_trimmed,
    show r.text.line = r.line from rfl, store_line]

/-- Parsing a rendered request gives its parts back and leaves what follows it. -/
theorem parseRequest_render (tail : List UInt8) (t : Timestamp) {buf : Buffer}
    (hbuf : buf.readable = r.render ++ tail) :
    ∃ ctx rest, HttpContext.parseRequest {} buf t = some (true, ctx, rest) ∧ ctx.gotAll = true ∧
      ctx.request_.method_ = r.method ∧ ctx.request_.version_ = r.version ∧
      ctx.request_.path_ = r.path ∧ ctx.request_.query_ = r.query ∧
      (∀ name value, ctx.request_.headers_[name]? = some value ↔ (name, value) ∈ r.fields) ∧
      rest.readable = tail := by
  obtain ⟨ok, ctx, rest, hparse, hfollows⟩ := parseRequest_spec {} buf t (.inl rfl)
  have hread : parser.read {} buf.readable = ⟨.finished, ⟨.kGotAll, r.text.request⟩, tail⟩ := by
    rw [hbuf, ← render_text, read_render]
  have hgot := gotAll_iff_of_follows (.inl rfl) hfollows
  rw [eraseTime_new, hread] at hgot hfollows
  have hrequest : ctx.request_.eraseTime = r.text.request :=
    congrArg HttpContext.request_ hfollows.context
  rw [request_text] at hrequest
  have hok : ok = true := by simpa using hfollows.ok
  have hheaders : ctx.request_.headers_ = (∅ : Headers).insertMany r.fields :=
    congrArg HttpRequest.headers_ hrequest
  refine ⟨ctx, rest, hok ▸ hparse, hgot.mpr rfl, congrArg HttpRequest.method_ hrequest,
    congrArg HttpRequest.version_ hrequest, congrArg HttpRequest.path_ hrequest,
    congrArg HttpRequest.query_ hrequest, ?_, hfollows.rest⟩
  intro name value
  rw [hheaders, getElem?_insertMany r.names_distinct]

/-- A search with two fields. A value has a colon and a question mark. -/
def search : ClientRequest where
  method := .kGet
  version := .kHttp11
  path := ascii "/search"
  query := ascii "?q=a:b"
  fields := [(ascii "Host", ascii "example:80"), (ascii "Referer", ascii "http://example/?q")]
  method_known := getRoot.method_known
  version_known := getRoot.version_known
  path_clean := by decide
  query_form := by decide
  query_clean := by decide
  names_distinct := by decide
  name_clean := by decide
  value_clean := by decide
  value_trimmed := by decide +kernel

/-- The search, and a line that looks like one more field. -/
def searchBuffer : Buffer :=
  (Buffer.new kInitialSize kInitialSize_le).append (search.render ++ ascii "Accept: */*\r\n")

theorem parseRequest_render_search :
    ∃ ctx rest, HttpContext.parseRequest {} searchBuffer {} = some (true, ctx, rest) ∧
      ctx.gotAll = true ∧ ctx.request_.query_ = ascii "?q=a:b" ∧
      ctx.request_.headers_[ascii "Host"]? = some (ascii "example:80") ∧
      rest.readable = ascii "Accept: */*\r\n" := by
  have hbuf : searchBuffer.readable = search.render ++ ascii "Accept: */*\r\n" := by
    rw [searchBuffer, Buffer.readable_append, Buffer.readable_new, List.nil_append]
  obtain ⟨ctx, rest, hparse, hgot, -, -, -, hquery, hheaders, hrest⟩ :=
    search.parseRequest_render _ {} hbuf
  exact ⟨ctx, rest, hparse, hgot, hquery, (hheaders _ _).mpr (.head _), hrest⟩

end ClientRequest

end CkServer
