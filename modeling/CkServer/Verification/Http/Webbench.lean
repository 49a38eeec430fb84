import CkServer.Model.Webbench
import CkServer.Verification.Http.Dialogue

/-! # The requests of the benchmark

Which URLs `build_request` has room for, what it writes for them, and that the server answers the
requests for `GET` and `HEAD` and refuses the others. -/

namespace CkServer.Webbench

open Text Lines HttpContext

/-! ## Host and port -/

/-- The name of the host ends at a colon before the first slash. -/
def HasPort (rest : List UInt8) : Prop := 58 ∈ rest ∧ rest.idxOf 58 < rest.idxOf 47

instance (rest : List UInt8) : Decidable (HasPort rest) :=
  inferInstanceAs (Decidable (58 ∈ rest ∧ rest.idxOf 58 < rest.idxOf 47))

def hostText (rest : List UInt8) : List UInt8 :=
  if HasPort rest then rest.take (rest.idxOf 58) else rest.take (rest.idxOf 47)

def portText (rest : List UInt8) : List UInt8 :=
  (rest.drop (rest.idxOf 58 + 1)).take (rest.idxOf 47 - rest.idxOf 58 - 1)

def portOf (proxyport : ℤ) (rest : List UInt8) : ℤ :=
  if HasPort rest then if atoi (portText rest) = 0 then 80 else atoi (portText rest) else proxyport

/-- White space, a sign and digits. -/
def IsNumber (s : List UInt8) : Prop :=
  ∃ blanks sign digits, s = blanks ++ sign ++ digits ∧ (∀ b ∈ blanks, isspace b = true) ∧
    (sign = [] ∨ sign = [byte '-'] ∨ sign = [byte '+']) ∧ ∀ b ∈ digits, isDigit b = true

theorem isspace_of_isDigit {b : UInt8} (h : isDigit b = true) : isspace b = false := by
  simp only [isDigit, isspace, Bool.and_eq_true, decide_eq_true_eq, Bool.or_eq_false_iff,
    beq_eq_false_iff_ne, Bool.and_eq_false_iff, decide_eq_false_iff_not, Nat.not_le] at h ⊢
  refine ⟨?_, by omega⟩
  rintro rfl
  exact absurd h.1 (by decide)

theorem not_sign_of_isDigit {b : UInt8} (h : isDigit b = true) :
    ¬ (b = byte '-' ∨ b = byte '+') := by
  rintro (rfl | rfl)
  · exact absurd h (by decide)
  · exact absurd h (by decide)

/-- `atoi` stops in a text that is more than a number, and reads on behind any other. -/
theorem afterNumber_eq_nil_iff (s : List UInt8) : afterNumber s = [] ↔ IsNumber s := by
  constructor
  · intro h
    have hsplit := (List.takeWhile_append_dropWhile (p := isspace) (l := s)).symm
    have hblank : ∀ b ∈ s.takeWhile isspace, isspace b = true := fun b hb =>
      List.mem_takeWhile_imp hb
    rw [afterNumber] at h
    cases hrest : s.dropWhile isspace with
    | nil =>
        rw [hrest] at hsplit
        exact ⟨_, [], [], by simpa using hsplit, hblank, .inl rfl, by simp⟩
    | cons b rest =>
        rw [hrest] at h hsplit
        by_cases hsign : b = byte '-' ∨ b = byte '+'
        · simp only [if_pos hsign] at h
          refine ⟨_, [b], rest, by simpa using hsplit, hblank, ?_, List.dropWhile_eq_nil_iff.mp h⟩
          rcases hsign with rfl | rfl
          · exact .inr (.inl rfl)
          · exact .inr (.inr rfl)
        · simp only [if_neg hsign] at h
          exact ⟨_, [], b :: rest, by simpa using hsplit, hblank, .inl rfl,
            List.dropWhile_eq_nil_iff.mp h⟩
  · rintro ⟨blanks, sign, digits, rfl, hblank, hsign, hdigits⟩
    have hnone : digits.dropWhile isDigit = [] := List.dropWhile_eq_nil_iff.mpr hdigits
    rw [afterNumber, List.append_assoc, List.dropWhile_append_of_pos hblank]
    rcases hsign with rfl | rfl | rfl
    · cases digits with
      | nil => rfl
      | cons d ds =>
          have hd := hdigits d List.mem_cons_self
          rw [List.nil_append, List.dropWhile_cons_of_neg (by simp [isspace_of_isDigit hd])]
          simp only [if_neg (not_sign_of_isDigit hd), hnone]
    · exact hnone
    · exact hnone

instance (s : List UInt8) : Decidable (IsNumber s) :=
  decidable_of_iff (afterNumber s = []) (afterNumber_eq_nil_iff s)

/-- The text of a port is written beyond `tmp`, or fills it and is read beyond it. -/
def TmpOverrun (s : List UInt8) : Prop := 10 < s.length ∨ s.length = 10 ∧ IsNumber s

instance (s : List UInt8) : Decidable (TmpOverrun s) :=
  inferInstanceAs (Decidable (10 < s.length ∨ s.length = 10 ∧ IsNumber s))

theorem strncpy_of_le {array : CharArray} {size : ℕ} {s : List UInt8} (h : s.length ≤ size) :
    strncpy array size s = .ok s := if_pos h

theorem strncpy_of_lt {array : CharArray} {size : ℕ} {s : List UInt8} (h : size < s.length) :
    strncpy array size s = .error (.overrun array) := if_neg (Nat.not_le.mpr h)

theorem readPort_eq (s : List UInt8) :
    (strncpy .tmp 10 s).bind (atoiOf .tmp 10) =
      if TmpOverrun s then .error (.overrun .tmp) else .ok (atoi s) := by
  by_cases hlong : 10 < s.length
  · rw [strncpy_of_lt hlong, if_pos (.inl hlong)]
    rfl
  · have hle := Nat.not_lt.mp hlong
    rw [strncpy_of_le hle]
    simp only [Except.bind, atoiOf, ne_eq, afterNumber_eq_nil_iff]
    by_cases hover : TmpOverrun s
    · have hfull := hover.resolve_left hlong
      rw [if_pos hover, if_neg]
      rintro (hlt | hnot)
      · exact absurd hfull.1 (Nat.ne_of_lt hlt)
      · exact hnot hfull.2
    · rw [if_neg hover, if_pos]
      rcases Nat.lt_or_eq_of_le hle with hlt | heq
      · exact .inl hlt
      · exact .inr fun hnumber => hover (.inr ⟨heq, hnumber⟩)

theorem getHost_of_hasPort (proxyport : ℤ) {rest : List UInt8} (h : HasPort rest) :
    getHost proxyport rest =
      (strncpy .host MAXHOSTNAMELEN (hostText rest)).bind fun host =>
        ((strncpy .tmp 10 (portText rest)).bind (atoiOf .tmp 10)).bind fun port =>
          pure (host, if port = 0 then 80 else port) := by
  rw [getHost, if_pos (show 58 ∈ rest ∧ rest.idxOf 58 < rest.idxOf 47 from h), hostText, if_pos h,
    portText]
  simp only [bind, Except.bind]
  cases strncpy .host MAXHOSTNAMELEN (rest.take (rest.idxOf 58)) with
  | error e => rfl
  | ok host =>
      cases strncpy .tmp 10
        ((rest.drop (rest.idxOf 58 + 1)).take (rest.idxOf 47 - rest.idxOf 58 - 1)) <;> rfl

theorem getHost_eq (proxyport : ℤ) (rest : List UInt8) :
    getHost proxyport rest =
      if MAXHOSTNAMELEN < (hostText rest).length then .error (.overrun .host)
      else if HasPort rest ∧ TmpOverrun (portText rest) then .error (.overrun .tmp)
      else .ok (hostText rest, portOf proxyport rest) := by
  by_cases hport : HasPort rest
  · rw [getHost_of_hasPort proxyport hport, readPort_eq, portOf, if_pos hport]
    by_cases hhost : MAXHOSTNAMELEN < (hostText rest).length
    · rw [strncpy_of_lt hhost, if_pos hhost]
      rfl
    · rw [strncpy_of_le (Nat.not_lt.mp hhost), if_neg hhost]
      by_cases htmp : TmpOverrun (portText rest)
      · rw [if_pos htmp, if_pos ⟨hport, htmp⟩]
        rfl
      · rw [if_neg htmp, if_neg (fun h => htmp h.2)]
        rfl
  · rw [getHost, if_neg (show ¬ (58 ∈ rest ∧ rest.idxOf 58 < rest.idxOf 47) from hport), hostText,
      if_neg hport, portOf, if_neg hport]
    by_cases hhost : MAXHOSTNAMELEN < (rest.take (rest.idxOf 47)).length
    · rw [strncpy_of_lt hhost, if_pos hhost]
      rfl
    · rw [strncpy_of_le (Nat.not_lt.mp hhost), if_neg hhost, if_neg (fun h => hport h.1)]
      rfl

/-! ## Room in the request -/

theorem strcat_of_room {request s : List UInt8} (h : request.length + s.length < REQUEST_SIZE) :
    strcat request s = .ok (request ++ s) := if_pos h

theorem strcatIf_of_room {condition : Bool} {request s : List UInt8}
    (h : request.length + s.length < REQUEST_SIZE) :
    strcatIf condition request s = .ok (request ++ if condition then s else []) := by
  cases condition with
  | true => exact strcat_of_room h
  | false => simp [strcatIf]

/-- Strings appended one after another, each behind its condition. -/
def strcatAll (request : List UInt8) (pieces : List (Bool × List UInt8)) :
    Except Failure (List UInt8) :=
  pieces.foldlM (fun request piece => strcatIf piece.1 request piece.2) request

def piecesText (pieces : List (Bool × List UInt8)) : List UInt8 :=
  pieces.flatMap fun piece => if piece.1 then piece.2 else []

theorem strcatAll_of_room (pieces : List (Bool × List UInt8)) {request : List UInt8}
    (h : request.length + (pieces.flatMap Prod.snd).length < REQUEST_SIZE) :
    strcatAll request pieces = .ok (request ++ piecesText pieces) := by
  induction pieces generalizing request with
  | nil => simp [strcatAll, piecesText, pure, Except.pure]
  | cons piece pieces ih =>
      rw [List.flatMap_cons, List.length_append] at h
      have hpiece : (if piece.1 then piece.2 else []).length ≤ piece.2.length := by
        split <;> simp
      rw [strcatAll, List.foldlM_cons, strcatIf_of_room (by omega)]
      refine (ih (by rw [List.length_append]; omega)).trans ?_
      simp [piecesText]

/-- What follows the target. -/
def headerPieces (g : Globals) (http10 : Protocol) (host : List UInt8) : List (Bool × List UInt8) :=
  [(http10.number = 1, ascii " HTTP/1.0"), (http10.number = 2, ascii " HTTP/1.1"),
    (true, ascii "\r\n"), (http10.number > 0, ascii "User-Agent: WebBench 1.5\r\n"),
    (g.proxyhost = none ∧ http10.number > 0, ascii "Host: "),
    (g.proxyhost = none ∧ http10.number > 0, host),
    (g.proxyhost = none ∧ http10.number > 0, ascii "\r\n"),
    (g.force_reload ∧ g.proxyhost ≠ none, ascii "Pragma: no-cache\r\n"),
    (http10.number > 1, ascii "Connection: close\r\n"), (http10.number > 0, ascii "\r\n")]

theorem length_headerPieces (g : Globals) (http10 : Protocol) (host : List UInt8) :
    ((headerPieces g http10 host).flatMap Prod.snd).length = host.length + 93 := by
  have hfixed : (ascii " HTTP/1.0").length = 9 ∧ (ascii " HTTP/1.1").length = 9 ∧
      (ascii "\r\n").length = 2 ∧ (ascii "User-Agent: WebBench 1.5\r\n").length = 26 ∧
      (ascii "Host: ").length = 6 ∧ (ascii "Pragma: no-cache\r\n").length = 18 ∧
      (ascii "Connection: close\r\n").length = 19 := by decide
  obtain ⟨h₁, h₂, h₃, h₄, h₅, h₆, h₇⟩ := hfixed
  simp only [headerPieces, List.flatMap_cons, List.flatMap_nil, List.length_append, List.append_nil,
    h₁, h₂, h₃, h₄, h₅, h₆, h₇]
  omega

theorem Protocol.number_pos (http10 : Protocol) : 0 < http10.number ↔ http10 ≠ .v09 := by
  cases http10 <;> simp

/-- The name of the host fills its array and is read as a string. -/
def HostRead (g : Globals) (http10 : Protocol) (host : List UInt8) : Prop :=
  g.proxyhost = none ∧ http10 ≠ .v09 ∧ MAXHOSTNAMELEN ≤ host.length

instance (g : Globals) (http10 : Protocol) (host : List UInt8) :
    Decidable (HostRead g http10 host) :=
  inferInstanceAs (Decidable (g.proxyhost = none ∧ http10 ≠ .v09 ∧ MAXHOSTNAMELEN ≤ host.length))

theorem strcatHost_eq (condition : Bool) (request host : List UInt8) :
    strcatHost condition request host =
      if condition = true ∧ MAXHOSTNAMELEN ≤ host.length then .error (.overrun .host)
      else strcatIf condition request host := by
  cases condition with
  | false => simp [strcatHost, strcatIf]
  | true =>
      by_cases hlong : MAXHOSTNAMELEN ≤ host.length
      · rw [if_pos ⟨rfl, hlong⟩, strcatHost, if_pos rfl, readString, if_neg (Nat.not_lt.mpr hlong)]
        rfl
      · rw [if_neg (fun h => hlong h.2), strcatHost, if_pos rfl, readString,
          if_pos (Nat.lt_of_not_le hlong)]
        rfl

theorem hostRead_iff (g : Globals) (http10 : Protocol) (host : List UInt8) :
    HostRead g http10 host ↔
      decide (g.proxyhost = none ∧ http10.number > 0) = true ∧ MAXHOSTNAMELEN ≤ host.length := by
  rw [HostRead, decide_eq_true_iff, gt_iff_lt, Protocol.number_pos, and_assoc]

/-- Nothing but the five pieces before it is appended if the name is read beyond its array. -/
theorem putHeaders_of_hostRead {g : Globals} {http10 : Protocol} {host : List UInt8}
    (hread : HostRead g http10 host) (request : List UInt8) :
    putHeaders g http10 host request =
      strcatAll request ((headerPieces g http10 host).take 5) >>= fun _ =>
        .error (.overrun .host) := by
  have hhost := (hostRead_iff g http10 host).mp hread
  have hstops (f : List UInt8 → Except Failure (List UInt8)) :
      (Except.error (.overrun .host) >>= f) = .error (.overrun .host) := rfl
  simp only [putHeaders, strcatHost_eq, if_pos hhost, hstops]
  simp [strcatAll, headerPieces, strcatIf]

theorem putHeaders_eq (g : Globals) (http10 : Protocol) {host request : List UInt8}
    (h : request.length + host.length + 93 < REQUEST_SIZE) :
    putHeaders g http10 host request =
      if HostRead g http10 host then .error (.overrun .host)
      else .ok (request ++ piecesText (headerPieces g http10 host)) := by
  have hlength := length_headerPieces g http10 host
  by_cases hread : HostRead g http10 host
  · have hprefix : ((headerPieces g http10 host).take 5).flatMap Prod.snd <+:
        (headerPieces g http10 host).flatMap Prod.snd :=
      (List.take_prefix 5 _).flatMap _
    have hle := hprefix.length_le
    rw [if_pos hread, putHeaders_of_hostRead hread, strcatAll_of_room _ (by omega)]
    rfl
  · have hhost := mt (hostRead_iff g http10 host).mpr hread
    have hall : putHeaders g http10 host request =
        strcatAll request (headerPieces g http10 host) := by
      simp only [putHeaders, strcatHost_eq, if_neg hhost]
      simp [strcatAll, headerPieces, strcatIf]
    rw [if_neg hread, hall, strcatAll_of_room _ (by omega)]

/-! ## What is built -/

theorem length_text_le (m : BenchMethod) : m.text.length ≤ 7 := by cases m <;> decide

/-- Where the target of the request begins in the URL. -/
def target (g : Globals) (url : List UInt8) (i : ℕ) : List UInt8 :=
  if g.proxyhost = none then (url.drop i).drop ((url.drop i).idxOf 47) else url

def hostFor (g : Globals) (url : List UInt8) (i : ℕ) : List UInt8 :=
  if g.proxyhost = none then hostText (url.drop i) else []

def portFor (g : Globals) (url : List UInt8) (i : ℕ) : ℤ :=
  if g.proxyhost = none then portOf g.proxyport (url.drop i) else g.proxyport

/-- The request for a URL that has been checked. -/
def requestFor (g : Globals) (url : List UInt8) (i : ℕ) : List UInt8 :=
  g.method.text ++ ascii " " ++ target g url i ++
    piecesText (headerPieces g (raisedHttp10 g) (hostFor g url i))

theorem checkUrl_eq_ok {g : Globals} {url : List UInt8} {i : ℕ} (h : checkUrl g url = .ok i) :
    url.length ≤ 1500 ∧ 47 ∈ url.drop i := by
  simp only [checkUrl] at h
  split at h
  · cases h
  · split_ifs at h with hlong hhttp hslash
    obtain rfl := Except.ok.inj h
    exact ⟨Nat.le_of_not_lt hlong, by simpa using hslash⟩

theorem length_target_le (g : Globals) (url : List UInt8) (i : ℕ) :
    (target g url i).length ≤ url.length := by
  rw [target]
  split
  · simp only [List.length_drop]
    omega
  · exact Nat.le_refl _

theorem length_space : (ascii " ").length = 1 := by decide

theorem strcat_method (m : BenchMethod) :
    strcat m.text (ascii " ") = .ok (m.text ++ ascii " ") := by
  have hmethod := length_text_le m
  exact strcat_of_room (by rw [length_space, REQUEST_SIZE]; omega)

theorem strcat_target (g : Globals) {url : List UInt8} (hurl : url.length ≤ 1500) (i : ℕ) :
    strcat (g.method.text ++ ascii " ") (target g url i) =
      .ok (g.method.text ++ ascii " " ++ target g url i) := by
  have hmethod := length_text_le g.method
  have htarget := length_target_le g url i
  exact strcat_of_room (by rw [List.length_append, length_space, REQUEST_SIZE]; omega)

/-- Behind the longest target there is room for what follows a name that its array can hold. -/
theorem putHeaders_target (g : Globals) {url : List UInt8} (hurl : url.length ≤ 1500) (i : ℕ)
    {host : List UInt8} (hhost : host.length ≤ MAXHOSTNAMELEN) :
    putHeaders g (raisedHttp10 g) host (g.method.text ++ ascii " " ++ target g url i) =
      if HostRead g (raisedHttp10 g) host then .error (.overrun .host)
      else .ok (g.method.text ++ ascii " " ++ target g url i ++
        piecesText (headerPieces g (raisedHttp10 g) host)) := by
  have hmethod := length_text_le g.method
  have htarget := length_target_le g url i
  apply putHeaders_eq
  simp only [List.length_append, length_space, REQUEST_SIZE, MAXHOSTNAMELEN] at hhost ⊢
  omega

/-- What happens to a URL that has been checked, and that there is room for every request. -/
theorem build_request_of_checkUrl {g : Globals} {url : List UInt8} {i : ℕ}
    (h : checkUrl g url = .ok i) :
    build_request g url =
      if g.proxyhost = none ∧ MAXHOSTNAMELEN < (hostText (url.drop i)).length then
        .error (.overrun .host)
      else if g.proxyhost = none ∧ HasPort (url.drop i) ∧ TmpOverrun (portText (url.drop i)) then
        .error (.overrun .tmp)
      else if HostRead g (raisedHttp10 g) (hostFor g url i) then .error (.overrun .host)
      else
        .ok { g with
          http10 := raisedHttp10 g
          host := hostFor g url i
          proxyport := portFor g url i
          request := requestFor g url i } := by
  have hurl := (checkUrl_eq_ok h).1
  have htarget := strcat_target g hurl i
  have hheaders (host : List UInt8) (hhost : host.length ≤ MAXHOSTNAMELEN) :=
    putHeaders_target g hurl i hhost
  cases hproxy : g.proxyhost with
  | none =>
      have htext : target g url i = (url.drop i).drop ((url.drop i).idxOf 47) := by
        rw [target, if_pos hproxy]
      have hhostFor : hostFor g url i = hostText (url.drop i) := by rw [hostFor, if_pos hproxy]
      have hport : portFor g url i = portOf g.proxyport (url.drop i) := by
        rw [portFor, if_pos hproxy]
      rw [requestFor, hhostFor, hport]
      rw [htext] at htarget hheaders ⊢
      simp only [build_request, strcat_method, h, putTarget, hproxy, getHost_eq, true_and, bind,
        Except.bind]
      by_cases hhost : MAXHOSTNAMELEN < (hostText (url.drop i)).length
      · rw [if_pos hhost, if_pos hhost]
      · rw [if_neg hhost, if_neg hhost]
        by_cases htmp : HasPort (url.drop i) ∧ TmpOverrun (portText (url.drop i))
        · rw [if_pos htmp, if_pos htmp]
        · rw [if_neg htmp, if_neg htmp]
          simp only [htarget, hheaders _ (Nat.not_lt.mp hhost), pure, Except.pure]
          by_cases hread : HostRead g (raisedHttp10 g) (hostText (url.drop i))
          · simp only [if_pos hread]
          · simp only [if_neg hread]
  | some proxy =>
      have htext : target g url i = url := by rw [target, if_neg (by simp [hproxy])]
      have hhostFor : hostFor g url i = [] := by rw [hostFor, if_neg (by simp [hproxy])]
      have hport : portFor g url i = g.proxyport := by rw [portFor, if_neg (by simp [hproxy])]
      have hread : ¬ HostRead g (raisedHttp10 g) [] := fun h => by simp [HostRead, hproxy] at h
      rw [requestFor, hhostFor, hport, if_neg (by simp), if_neg (by simp), if_neg hread]
      rw [htext] at htarget hheaders ⊢
      simp only [build_request, strcat_method, h, putTarget, hproxy, bind, Except.bind, htarget,
        hheaders [] (Nat.zero_le _), if_neg hread, pure, Except.pure]

/-- A URL that is refused ends the program in an orderly way. -/
theorem checkUrl_eq_error {g : Globals} {url : List UInt8} {e : Failure}
    (h : checkUrl g url = .error e) : e = .exit 2 := by
  simp only [checkUrl] at h
  split at h
  · exact (Except.error.inj h).symm
  · split_ifs at h
    · exact (Except.error.inj h).symm
    · exact (Except.error.inj h).symm
    · exact (Except.error.inj h).symm

theorem build_request_of_error {g : Globals} {url : List UInt8} {e : Failure}
    (h : checkUrl g url = .error e) : build_request g url = .error e := by
  simp only [build_request, strcat_method, h, bind, Except.bind]

/-- The request always has room. The other two arrays are overrun by a long name or a long port of a
URL that has passed the checks, and by nothing else. A text that just fills its array overruns it
only where it is read as a string: the name for the field `Host`, the port if it is all number. -/
theorem overrun_iff (g : Globals) (url : List UInt8) (array : CharArray) :
    build_request g url = .error (.overrun array) ↔
      ∃ i, checkUrl g url = .ok i ∧ g.proxyhost = none ∧
        let host := hostText (url.drop i)
        let tmpOverrun := HasPort (url.drop i) ∧ TmpOverrun (portText (url.drop i))
        (array = .host ∧ (MAXHOSTNAMELEN < host.length ∨
            host.length = MAXHOSTNAMELEN ∧ raisedHttp10 g ≠ .v09 ∧ ¬ tmpOverrun) ∨
          array = .tmp ∧ host.length ≤ MAXHOSTNAMELEN ∧ tmpOverrun) := by
  cases hcheck : checkUrl g url with
  | error e =>
      obtain rfl := checkUrl_eq_error hcheck
      simp [build_request_of_error hcheck]
  | ok i =>
      rw [build_request_of_checkUrl hcheck]
      simp only [Except.ok.injEq, exists_eq_left']
      have harray (b : CharArray) :
          (Except.error (.overrun b) : Except Failure Globals) = .error (.overrun array) ↔
            array = b := by
        rw [Except.error.injEq, Failure.overrun.injEq, eq_comm]
      have hread_iff (hproxy : g.proxyhost = none) :
          HostRead g (raisedHttp10 g) (hostFor g url i) ↔
            raisedHttp10 g ≠ .v09 ∧ MAXHOSTNAMELEN ≤ (hostText (url.drop i)).length := by
        rw [HostRead, hostFor, if_pos hproxy]
        exact and_iff_right hproxy
      split_ifs with hlong htmp hread
      · -- written beyond the array of the name
        rw [harray]
        simp [hlong.1, hlong.2, Nat.not_le.mpr hlong.2]
      · -- the port, behind a name that has been copied
        have hle : ¬ MAXHOSTNAMELEN < (hostText (url.drop i)).length := fun h =>
          hlong ⟨htmp.1, h⟩
        rw [harray]
        simp [htmp, hle, Nat.not_lt.mp hle]
      · -- the name is read, and it has no end
        have hproxy := hread.1
        obtain ⟨hversion, hfull⟩ := (hread_iff hproxy).mp hread
        have hle : ¬ MAXHOSTNAMELEN < (hostText (url.drop i)).length := fun h => hlong ⟨hproxy, h⟩
        have hport : ¬ (HasPort (url.drop i) ∧ TmpOverrun (portText (url.drop i))) := fun h =>
          htmp ⟨hproxy, h⟩
        have heq := Nat.le_antisymm (Nat.not_lt.mp hle) hfull
        rw [harray]
        simp only [hproxy, hport, heq, hversion, ne_eq, not_false_eq_true, and_self, true_and,
          or_true, and_true, and_false, or_false]
      · constructor
        · intro h
          cases h
        · rintro ⟨hproxy, ⟨-, hwritten | ⟨hfull, hversion, -⟩⟩ | ⟨-, -, hport⟩⟩
          · exact absurd ⟨hproxy, hwritten⟩ hlong
          · exact absurd ((hread_iff hproxy).mpr ⟨hversion, hfull.ge⟩) hread
          · exact absurd ⟨hproxy, hport⟩ htmp

/-- Ten characters of a port: `atoi` stops in the first text and reads on behind the second. -/
example :
    (build_request {} (ascii "http://h:80abcdefgh/")).map Globals.proxyport = .ok 80 ∧
      build_request {} (ascii "http://h:0000008080/") = .error (.overrun .tmp) := by
  decide +kernel

/-! ## As a client's request -/

def BenchMethod.method : BenchMethod → Method
  | .METHOD_GET => .kGet
  | .METHOD_HEAD => .kHead
  | .METHOD_OPTIONS => .kInvalid
  | .METHOD_TRACE => .kInvalid

def versionOf : Protocol → Version
  | .v09 => .kUnknown
  | .v10 => .kHttp10
  | .v11 => .kHttp11

theorem eq_v10_or_v11 {http10 : Protocol} (h : http10 ≠ .v09) :
    http10 = .v10 ∨ http10 = .v11 := by
  cases http10 <;> simp at h ⊢

def fields (g : Globals) (http10 : Protocol) (host : List UInt8) : List Field :=
  [(ascii "User-Agent", ascii "WebBench 1.5")] ++
    (if g.proxyhost = none then [(ascii "Host", host)] else []) ++
    (if g.force_reload ∧ g.proxyhost ≠ none then [(ascii "Pragma", ascii "no-cache")] else []) ++
    (if http10 = .v11 then [(ascii "Connection", ascii "close")] else [])

theorem piecesText_headerPieces (g : Globals) {http10 : Protocol} (h : http10 ≠ .v09)
    (host : List UInt8) :
    piecesText (headerPieces g http10 host) =
      [32] ++ (versionOf http10).text ++ crlf ++ fieldBlock (fields g http10 host) := by
  have hagent : ascii "User-Agent: WebBench 1.5\r\n" =
      fieldLine (ascii "User-Agent", ascii "WebBench 1.5") ++ crlf := by decide
  have hpragma : ascii "Pragma: no-cache\r\n" =
      fieldLine (ascii "Pragma", ascii "no-cache") ++ crlf := by decide
  have hconnection : ascii "Connection: close\r\n" =
      fieldLine (ascii "Connection", ascii "close") ++ crlf := by decide
  have hhost : ascii "Host: " = ascii "Host" ++ [58, 32] := by decide
  have hbreak : ascii "\r\n" = crlf := by decide
  have hold : ascii " HTTP/1.0" = [32] ++ Version.text .kHttp10 := by decide
  have hnew : ascii " HTTP/1.1" = [32] ++ Version.text .kHttp11 := by decide
  rcases eq_v10_or_v11 h with rfl | rfl
  · cases hproxy : g.proxyhost <;> cases hreload : g.force_reload <;>
      simp [piecesText, headerPieces, fields, fieldBlock, versionOf, hproxy, hreload, hagent,
        hpragma, hconnection, hhost, hbreak, hold, fieldLine]
  · cases hproxy : g.proxyhost <;> cases hreload : g.force_reload <;>
      simp [piecesText, headerPieces, fields, fieldBlock, versionOf, hproxy, hreload, hagent,
        hpragma, hconnection, hhost, hbreak, hnew, fieldLine]

/-- No white space, so that the request has it only where it belongs. -/
def Clean (s : List UInt8) : Prop := ∀ b ∈ s, isspace b = false

theorem Clean.notMem {s : List UInt8} (h : Clean s) {b : UInt8} (hb : isspace b = true) :
    b ∉ s := by
  intro hmem
  rw [h b hmem] at hb
  cases hb

theorem Clean.target {url : List UInt8} (h : Clean url) (g : Globals) (i : ℕ) :
    Clean (target g url i) := by
  intro b hb
  rw [Webbench.target] at hb
  split at hb
  · exact h b (List.mem_of_mem_drop (List.mem_of_mem_drop hb))
  · exact h b hb

theorem Clean.hostFor {url : List UInt8} (h : Clean url) (g : Globals) (i : ℕ) :
    Clean (hostFor g url i) := by
  intro b hb
  rw [Webbench.hostFor] at hb
  split at hb
  · rw [hostText] at hb
    split at hb
    · exact h b (List.mem_of_mem_drop (List.mem_of_mem_take hb))
    · exact h b (List.mem_of_mem_drop (List.mem_of_mem_take hb))
  · cases hb

theorem Clean.trimmed {s : List UInt8} (h : Clean s) : Trimmed s :=
  ⟨fun b hb => h b (List.mem_of_mem_head? hb), fun b hb => h b (List.mem_of_getLast? hb)⟩

/-- The fields that are the same for every URL. -/
def fixedFields : List Field :=
  [(ascii "User-Agent", ascii "WebBench 1.5"), (ascii "Pragma", ascii "no-cache"),
    (ascii "Connection", ascii "close")]

theorem fixedFields_clean : ∀ field ∈ fixedFields, (58 ∉ field.1 ∧ 13 ∉ field.1 ∧ 10 ∉ field.1) ∧
    (13 ∉ field.2 ∧ 10 ∉ field.2) ∧ Trimmed field.2 := by
  decide +kernel

theorem eq_of_mem_fields {g : Globals} {http10 : Protocol} {host : List UInt8} {field : Field}
    (h : field ∈ fields g http10 host) : field ∈ fixedFields ∨ field = (ascii "Host", host) := by
  simp only [fields, List.mem_append] at h
  simp only [fixedFields]
  rcases h with ((h | h) | h) | h
  · simp_all
  · split at h <;> simp_all
  · split at h <;> simp_all
  · split at h <;> simp_all

theorem nodup_fields (g : Globals) (http10 : Protocol) (host : List UInt8) :
    ((fields g http10 host).map Prod.fst).Nodup := by
  have hone : (ascii "User-Agent") ≠ ascii "Host" ∧ ascii "User-Agent" ≠ ascii "Pragma" ∧
      ascii "User-Agent" ≠ ascii "Connection" ∧ ascii "Host" ≠ ascii "Pragma" ∧
      ascii "Host" ≠ ascii "Connection" ∧ ascii "Pragma" ≠ ascii "Connection" := by decide
  simp only [fields]
  split_ifs <;> simp [hone]

/-- The request line of a benchmark for `GET` or `HEAD`. -/
def requestLine (g : Globals) (http10 : Protocol) {target : List UInt8}
    (hmethod : g.method.method ≠ .kInvalid) (hversion : http10 ≠ .v09) (htarget : Clean target) :
    RequestLine where
  method := g.method.method
  target := target
  version := versionOf http10
  method_known := hmethod
  version_known := by rcases eq_v10_or_v11 hversion with rfl | rfl <;> decide
  target_no_space := htarget.notMem (by decide)

def clientRequest (g : Globals) (http10 : Protocol) {host target : List UInt8}
    (hmethod : g.method.method ≠ .kInvalid) (hversion : http10 ≠ .v09) (hhost : Clean host)
    (htarget : Clean target) : ClientRequest where
  method := g.method.method
  version := versionOf http10
  path := (requestLine g http10 hmethod hversion htarget).path
  query := (requestLine g http10 hmethod hversion htarget).query
  fields := fields g http10 host
  method_known := hmethod
  version_known := (requestLine g http10 hmethod hversion htarget).version_known
  path_clean := by
    have hclean : Clean (requestLine g http10 hmethod hversion htarget).path :=
      fun b hb => htarget b (List.mem_of_mem_take hb)
    exact ⟨hclean.notMem (by decide), RequestLine.question_notMem_path _,
      hclean.notMem (by decide), hclean.notMem (by decide)⟩
  query_form := by
    by_cases hmem : 63 ∈ target
    · exact .inr ((requestLine g http10 hmethod hversion htarget).head?_query hmem)
    · left
      simp [RequestLine.query, requestLine, List.idxOf_eq_length hmem]
  query_clean := by
    have hclean : Clean (requestLine g http10 hmethod hversion htarget).query :=
      fun b hb => htarget b (List.mem_of_mem_drop hb)
    exact ⟨hclean.notMem (by decide), hclean.notMem (by decide), hclean.notMem (by decide)⟩
  names_distinct := nodup_fields g http10 host
  name_clean := by
    intro field hfield
    rcases eq_of_mem_fields hfield with h | rfl
    · exact (fixedFields_clean field h).1
    · exact (by decide : 58 ∉ ascii "Host" ∧ 13 ∉ ascii "Host" ∧ 10 ∉ ascii "Host")
  value_clean := by
    intro field hfield
    rcases eq_of_mem_fields hfield with h | rfl
    · exact (fixedFields_clean field h).2.1
    · exact ⟨hhost.notMem (by decide), hhost.notMem (by decide)⟩
  value_trimmed := by
    intro field hfield
    rcases eq_of_mem_fields hfield with h | rfl
    · exact (fixedFields_clean field h).2.2
    · exact hhost.trimmed

theorem render_clientRequest (g : Globals) (http10 : Protocol) {host target : List UInt8}
    (hmethod : g.method.method ≠ .kInvalid) (hversion : http10 ≠ .v09) (hhost : Clean host)
    (htarget : Clean target) :
    (clientRequest g http10 hmethod hversion hhost htarget).render =
      g.method.text ++ ascii " " ++ target ++ piecesText (headerPieces g http10 host) := by
  have hpath := (requestLine g http10 hmethod hversion htarget).path_append_query
  have htext : g.method.method.methodString = g.method.text := by
    cases hm : g.method with
    | METHOD_GET => rfl
    | METHOD_HEAD => rfl
    | METHOD_OPTIONS => exact absurd (congrArg BenchMethod.method hm) hmethod
    | METHOD_TRACE => exact absurd (congrArg BenchMethod.method hm) hmethod
  rw [piecesText_headerPieces g hversion, ClientRequest.render]
  simp only [clientRequest, hpath, htext]
  simp [requestLine, show ascii " " = [32] by decide]

/-! ## At the server -/

/-- A line that is no request line is refused at once. -/
theorem rejected_of_line {line : List UInt8} (hline : Unbroken line)
    (hbad : ∀ rl : RequestLine, line ≠ rl.render) (rest : List UInt8) :
    (parser.read {} (line ++ crlf ++ rest)).stop = .rejected := by
  have hfst : (processRequestLine {} line).1 = false := by
    by_contra h
    obtain ⟨rl, hrl⟩ := eq_render_of_processRequestLine (by simpa using h)
    exact hbad rl hrl
  have hstep : parser.step {} line =
      .reject ⟨.kExpectRequestLine, (processRequestLine {} line).2⟩ := by
    simp [parser, readLine, hfst]
  rw [parser.read_of_reject (splitLine?_append hline rest) hstep]

/-- Two texts that agree are cut alike by their first space. -/
theorem eq_of_append_space {xs ys us vs : List UInt8} (hx : 32 ∉ xs) (hy : 32 ∉ ys)
    (h : xs ++ 32 :: us = ys ++ 32 :: vs) : xs = ys ∧ us = vs := by
  have hindex := congrArg (List.idxOf 32) h
  rw [List.idxOf_append_of_notMem hx, List.idxOf_append_of_notMem hy, List.idxOf_cons_self,
    List.idxOf_cons_self] at hindex
  obtain ⟨hxy, htail⟩ := List.append_inj h (by simpa using hindex)
  exact ⟨hxy, List.tail_eq_of_cons_eq htail⟩

theorem space_notMem_text (m : BenchMethod) : 32 ∉ m.text := by cases m <;> decide

/-- A method that the server does not know. -/
theorem ne_render_of_method {m : BenchMethod} (hm : m.method = .kInvalid) (rest : List UInt8)
    (rl : RequestLine) : m.text ++ 32 :: rest ≠ rl.render := by
  intro h
  rw [RequestLine.render, List.append_assoc, List.singleton_append] at h
  have hname := (eq_of_append_space (space_notMem_text m) (space_notMem_methodString rl.method) h).1
  cases m with
  | METHOD_GET => cases hm
  | METHOD_HEAD => cases hm
  | METHOD_OPTIONS => cases hrl : rl.method <;> rw [hrl] at hname <;> exact absurd hname (by decide)
  | METHOD_TRACE => cases hrl : rl.method <;> rw [hrl] at hname <;> exact absurd hname (by decide)

/-- A line without a version. -/
theorem ne_render_of_noVersion (m : BenchMethod) {target : List UInt8} (h : 32 ∉ target)
    (rl : RequestLine) : m.text ++ 32 :: target ≠ rl.render := by
  intro heq
  rw [RequestLine.render, List.append_assoc, List.singleton_append] at heq
  have htail :=
    (eq_of_append_space (space_notMem_text m) (space_notMem_methodString rl.method) heq).2
  exact h (by simp [htail])

/-- The server knows `GET` and `HEAD`, with a version. -/
def Known (g : Globals) : Prop := g.method.method ≠ .kInvalid ∧ raisedHttp10 g ≠ .v09

theorem rejected_of_not_known {g : Globals} (hnot : ¬ Known g) {url : List UInt8}
    (hurl : Clean url) (i : ℕ) : (parser.read {} (requestFor g url i)).stop = .rejected := by
  have hspace : ascii " " = [32] := by decide
  have hnone : 32 ∉ target g url i := (hurl.target g i).notMem (by decide)
  have hreturn : 13 ∉ target g url i := (hurl.target g i).notMem (by decide)
  have hmethod : 13 ∉ g.method.text := by cases g.method <;> decide
  by_cases hversion : raisedHttp10 g = .v09
  · -- the request of version 0.9: the line ends behind the target
    have hrest : piecesText (headerPieces g .v09 (hostFor g url i)) = crlf ++
        if g.force_reload ∧ g.proxyhost ≠ none then ascii "Pragma: no-cache\r\n" else [] := by
      simp [piecesText, headerPieces, show ascii "\r\n" = crlf by decide]
    rw [requestFor, hversion, hrest, hspace, ← List.append_assoc]
    apply rejected_of_line
    · exact unbroken_of_not_mem (by simp [hmethod, hreturn])
    · intro rl
      rw [List.append_assoc, List.singleton_append]
      exact ne_render_of_noVersion g.method hnone rl
  · have hm : g.method.method = .kInvalid := by
      by_contra hknown
      exact hnot ⟨hknown, hversion⟩
    have hreturn' : 13 ∉ (versionOf (raisedHttp10 g)).text := by
      rcases eq_v10_or_v11 hversion with h | h <;> rw [h] <;> decide
    rw [requestFor, piecesText_headerPieces g hversion, hspace, ← List.append_assoc,
      ← List.append_assoc]
    apply rejected_of_line
    · exact unbroken_of_not_mem (by simp [hmethod, hreturn, hreturn'])
    · intro rl
      simp only [List.append_assoc, List.singleton_append]
      exact ne_render_of_method hm _ rl

theorem name_ne_connection {g : Globals} {host : List UInt8} {field : Field}
    (h : field ∈ fields g .v10 host) : field.1 ≠ ascii "Connection" := by
  have hother : ascii "User-Agent" ≠ ascii "Connection" ∧ ascii "Host" ≠ ascii "Connection" ∧
      ascii "Pragma" ≠ ascii "Connection" := by decide
  simp only [fields, List.mem_append] at h
  rcases h with ((h | h) | h) | h
  · simp_all
  · split at h <;> simp_all
  · split at h <;> simp_all
  · simp at h

/-- The connection closes behind the response: version 1.0 does so without a field, and for
version 1.1 the field is written. -/
theorem response_of_asked {g : Globals} (hknown : Known g) {host target : List UInt8}
    (hhost : Clean host) (htarget : Clean target) {d : Dispatch}
    (hasked : (clientRequest g (raisedHttp10 g) hknown.1 hknown.2 hhost htarget).Asked d.request) :
    d.response = d.server.httpCallback_ d.request { closeConnection_ := true } := by
  have hclose : d.request.getHeader (ascii "Connection") = ascii "close" ∨
      (d.request.version_ = .kHttp10 ∧
        d.request.getHeader (ascii "Connection") ≠ ascii "Keep-Alive") := by
    rcases eq_v10_or_v11 hknown.2 with h | h
    · right
      have hnone : d.request.headers_[ascii "Connection"]? = none := by
        rw [Option.eq_none_iff_forall_ne_some]
        intro value hvalue
        have hmem : (_, value) ∈ fields g (raisedHttp10 g) host := (hasked.headers _ _).mp hvalue
        exact name_ne_connection (h ▸ hmem) rfl
      refine ⟨?_, ?_⟩
      · rw [hasked.version]
        simp [clientRequest, versionOf, h]
      · rw [HttpRequest.getHeader, hnone]
        decide
    · left
      rw [HttpRequest.getHeader, (hasked.headers _ (ascii "close")).mpr]
      · rfl
      · simp [clientRequest, fields, h]
  rw [Dispatch.response, HttpServer.response, decide_eq_true hclose]

open HttpConnection in
/-- However the request of a benchmark is cut, the server answers it once, with a response that is
offered as one that closes, if the method is `GET` or `HEAD` and the request has a version, and
refuses it once otherwise. -/
theorem served_of_benchmark {g g' : Globals} {url : List UInt8}
    (hbuild : build_request g url = .ok g') (hurl : Clean url) (address fd : ℕ)
    {es : List HttpEvent} (hes : ∀ e ∈ es, e.PeerStays) (hinput : input es = g'.request) :
    ∃ h i, run address fd es = some h ∧ checkUrl g url = .ok i ∧
      (Known g → ∃ d, h.dispatched = [d] ∧
        d.request.method_ = g.method.method ∧ d.request.version_ = versionOf g'.http10 ∧
        d.request.path_ ++ d.request.query_ = target g url i ∧
        (g.proxyhost = none → d.request.getHeader (ascii "Host") = g'.host) ∧
        d.response = d.server.httpCallback_ d.request { closeConnection_ := true } ∧
        written h.conn.socket_ ++ h.conn.outputBuffer_.readable = d.response.serialised ∧
        (.shutdownWrite ∈ h.conn.socket_ ↔ h.conn.outputBuffer_.readable = [] ∧
          d.response.closeConnection_ = true) ∧
        (.shutdownWrite ∈ h.conn.socket_ → d.response.WellFormed →
          HttpResponse.read? (written h.conn.socket_) =
            some ⟨d.response.statusCode_, d.response.statusMessage_, d.response.expectedFields,
              d.response.body_⟩)) ∧
      (¬ Known g → h.dispatched = [] ∧
        written h.conn.socket_ ++ h.conn.outputBuffer_.readable = HttpServer.badRequest ∧
        (.shutdownWrite ∈ h.conn.socket_ ↔ h.conn.outputBuffer_.readable = [])) := by
  cases hcheck : checkUrl g url with
  | error e =>
      rw [build_request_of_error hcheck] at hbuild
      cases hbuild
  | ok i =>
      rw [build_request_of_checkUrl hcheck] at hbuild
      split_ifs at hbuild
      obtain rfl := Except.ok.inj hbuild
      by_cases hknown : Known g
      · let r := clientRequest g (raisedHttp10 g) hknown.1 hknown.2 (hurl.hostFor g i)
          (hurl.target g i)
        have hrender : r.render = requestFor g url i := render_clientRequest ..
        have hwhole : [] ++ input es = r.text.render := by
          rw [List.nil_append, hinput, ClientRequest.render_text, hrender]
        obtain ⟨h, server, req, hrun, hf, -, hreq, hexchange⟩ :=
          foldlM_of_whole hes (flowing_new address fd) (awaits_new address fd)
            (List.length_pos_iff.mpr r.text.render_ne_nil) hwhole
        have hasked : r.Asked req := ClientRequest.asked_of_eraseTime hreq
        let d : Dispatch := ⟨server, req, true⟩
        have hnew : h.exchange = ⟨!d.closes, [d], [d.reply]⟩ := by
          rw [hexchange]
          rfl
        have hstream := hf.stream_eq
        have hend : .shutdownWrite ∈ h.conn.socket_ ↔ h.conn.outputBuffer_.readable = [] ∧
            d.response.closeConnection_ = true := by
          rw [hf.shutdownWrite_iff, hnew]
          simp [Dispatch.closes]
        rw [show h.accepted = [d.reply] from congrArg Exchange.accepted hnew,
          List.flatten_singleton] at hstream
        refine ⟨h, i, hrun, rfl, fun _ => ⟨d, congrArg Exchange.dispatched hnew, hasked.method,
          hasked.version, ?_, ?_, response_of_asked hknown _ _ hasked, hstream, hend, ?_⟩,
          fun hnot => absurd hknown hnot⟩
        · rw [hasked.path, hasked.query]
          exact RequestLine.path_append_query _
        · intro hproxy
          have hmem : (ascii "Host", hostFor g url i) ∈ r.fields := by
            simp [r, clientRequest, fields, hproxy]
          rw [HttpRequest.getHeader, (hasked.headers _ _).mpr hmem]
          rfl
        · intro hdone hwell
          obtain ⟨hempty, hclose⟩ := hend.mp hdone
          rw [hempty, List.append_nil] at hstream
          rw [hstream]
          exact HttpResponse.read?_serialised hwell hclose
      · obtain ⟨h, hrun, hf, hexchange⟩ :=
          foldlM_of_rejected hes (flowing_new address fd) (awaits_new address fd)
            (by rw [List.nil_append, hinput]; exact rejected_of_not_known hknown hurl i)
        have hnew : h.exchange = ⟨false, [], [HttpServer.badRequest]⟩ := by
          rw [hexchange]
          rfl
        refine ⟨h, i, hrun, rfl, fun hyes => absurd hyes hknown,
          fun _ => ⟨congrArg Exchange.dispatched hnew, ?_, ?_⟩⟩
        · rw [hf.stream_eq, show h.accepted = _ from congrArg Exchange.accepted hnew,
            List.flatten_singleton]
        · rw [hf.shutdownWrite_iff, hnew]
          exact and_iff_left rfl

def localUrl : List UInt8 := ascii "http://localhost:8080/search?q=a:b"

/-- What is left in the variables for `localUrl`. -/
def localGlobals : Globals where
  proxyport := 8080
  host := ascii "localhost"
  request := ascii
    "GET /search?q=a:b HTTP/1.0\r\nUser-Agent: WebBench 1.5\r\nHost: localhost\r\n\r\n"

/-- The request in two pieces. -/
def localEvents : List HttpEvent :=
  [.handleRead { received := .ok (localGlobals.request.take 30) },
    .handleRead { received := .ok (localGlobals.request.drop 30) }]

theorem served_localUrl :
    ∃ h i, HttpConnection.run 1 7 localEvents = some h ∧
      checkUrl {} localUrl = .ok i ∧ ∃ d, h.dispatched = [d] ∧
        d.request.path_ ++ d.request.query_ = target {} localUrl i := by
  have hbuild : build_request {} localUrl = .ok localGlobals := by decide +kernel
  have hes : ∀ e ∈ localEvents, e.PeerStays := by
    simp only [localEvents, List.forall_mem_cons, HttpEvent.PeerStays, Writable, Nat.le_refl,
      implies_true, and_true, List.not_mem_nil, false_implies]
    decide +kernel
  have hinput : input localEvents = localGlobals.request := by
    simp [localEvents, input, HttpEvent.received, Except.toOption]
  obtain ⟨h, i, hrun, hcheck, hserved, -⟩ :=
    served_of_benchmark hbuild (by unfold Clean; decide +kernel) 1 7 hes hinput
  obtain ⟨d, hd, -, -, htarget, -⟩ := hserved ⟨by decide, by decide⟩
  exact ⟨h, i, hrun, hcheck, d, hd, htarget⟩

end CkServer.Webbench
